import Marginalia.Proofs.Files.Route
import Marginalia.Proofs.Files.Walk
import Marginalia.Proofs.Path.Plain

set_option autoImplicit false

/-!
# What a walk comes to is there

A walk goes from place to place, and it looks up each link from the root on.  Whoever asks
for a file by its path meets all links on the way at once, so a path that a walk came by may
be too long to be followed, in links or in letters.  But it never leads to nothing: the
places of a walk are reached through directories, and a route that goes over one of its
links comes to where the walk went on.
-/

namespace Marginalia.FileTree

variable {t : FileTree} {last : Bool} {links : Nat} {place here : Place} {entry : Entry}

/-! ## Names below a directory -/

section Names

variable {root : Path} {base : Place} {names : List RawText}

/-- Names below a directory are followed from there, by whoever can look up their path. -/
theorem exists_locate_names (hroot : t.stat root = .ok (base, .directory))
    (hbytes : root.bytes ≠ [])
    (hne : names ≠ []) (hnames : ∀ s ∈ names, Path.IsName s)
    (hsound : IsSound (names.foldl Path.child root)) :
    ∃ links, t.locate true (names.foldl Path.child root) = t.follow true links base names := by
  have hrelative := Path.isAbsolute_ofNames hnames
  obtain ⟨start, hstart, hdown⟩ := exists_follow_of_stat hroot
  rw [locate_of_isSound hsound, Path.foldl_child_eq_join hbytes hne hnames, start?,
    Path.isAbsolute_join hbytes hrelative, ← start?, hstart]
  obtain ⟨front, -, hjoin, hfront⟩ := Path.segments_join hbytes hrelative
  rw [hjoin, Path.segments_ofNames hne hnames]
  obtain ⟨links, hgo⟩ := follow_append t hdown
  refine ⟨links, ?_⟩
  rw [← hgo true names hne]
  rcases hfront with hfront | hfront
  · rw [hfront]
  · -- the path of the directory ends in a slash, which leads nowhere
    have hlast := isLookedUp_of_isName (hnames _ (List.getLast_mem hne))
    have hsame : SameRoute names names := by
      rw [← List.dropLast_append_getLast hne]
      exact (SameRoute.last hlast).append _
    rw [hfront, List.append_assoc]
    exact follow_congr ((SameRoute.skipRight (.inl rfl) hsame).append front) true linkBudget _

/-- What names below a directory lead to is found on their route from there. -/
theorem exists_follow_names (hroot : t.stat root = .ok (base, .directory))
    (hbytes : root.bytes ≠ [])
    (hne : names ≠ []) (hnames : ∀ s ∈ names, Path.IsName s)
    (h : t.stat (names.foldl Path.child root) = .ok (place, entry)) :
    ∃ links, t.follow true links base names = .ok (.found place entry) := by
  have hlocate := locate_of_stat h
  obtain ⟨links, hlinks⟩ :=
    exists_locate_names hroot hbytes hne hnames (isSound_of_locate hlocate)
  exact ⟨links, hlinks ▸ hlocate⟩

end Names

/-! ## Budgets -/

/-- With another number of links a route comes to the same, or it meets too many links. -/
theorem follow_of_links {pieces : List RawText} {spot : Spot}
    (h : t.follow true links place pieces = .ok spot) (other : Nat) :
    t.follow true other place pieces = .ok spot ∨
      t.follow true other place pieces = .error .linkLoop := by
  replace h := Route.of_follow h
  induction h generalizing other with
  | arrived => exact .inl follow_nil
  | skipped hpiece _ ih =>
    rw [follow_skipped hpiece]
    exact ih other
  | up _ ih =>
    rw [follow_up]
    exact ih other
  | vacant hname hshort hentry hrest =>
    exact .inl (Route.vacant hname hshort hentry hrest).follow_eq
  | directory hname hshort hentry _ ih =>
    rw [follow_directory hname hentry, if_neg (Nat.not_lt.2 hshort)]
    exact ih other
  | file hname hshort hentry => exact .inl (Route.file hname hshort hentry).follow_eq
  | link _ _ _ hlast => cases hlast
  | through hname hshort hentry hgoes _ ih =>
    cases other with
    | zero => exact .inr (follow_link_zero hname hshort hentry hgoes)
    | succ other =>
      rw [follow_link_succ hname hshort hentry hgoes]
      exact ih other

/-- A route that meets too many links does so whatever comes after. -/
theorem follow_append_of_linkLoop {front : List RawText}
    (h : t.follow true links place front = .error .linkLoop) (back : List RawText) :
    t.follow true links place (front ++ back) = .error .linkLoop := by
  induction links, place, front using follow_induction t with
  | nil links place =>
    rw [follow_nil] at h
    cases h
  | skipped links place piece rest hpiece ih =>
    rw [List.cons_append, follow_skipped hpiece]
    exact ih (follow_skipped hpiece ▸ h)
  | up links place rest ih =>
    rw [List.cons_append, follow_up]
    exact ih (follow_up ▸ h)
  | name links place name rest hname ihDirectory ihLink =>
    rw [follow_name hname] at h
    rw [List.cons_append, follow_name hname]
    split at h
    · cases h
    · rename_i hlength
      rw [if_neg hlength]
      split at h
      · split at h <;> cases h
      · rename_i hentry
        exact ihDirectory hentry h
      · split at h <;> cases h
      · rename_i target hentry
        rw [Bool.not_true, Bool.and_false, if_neg Bool.false_ne_true] at h ⊢
        cases links with
        | zero => rfl
        | succ fewer =>
          dsimp only
          rw [← List.append_assoc]
          exact ihLink target fewer hentry rfl h

/-- A route that comes to a directory goes on from there with any number of links, unless
they are too few. -/
theorem follow_append_cases {front back : List RawText}
    (h : t.follow true links place front = .ok (.found here .directory)) (hback : back ≠ [])
    (other : Nat) :
    t.follow true other place (front ++ back) = .error .linkLoop ∨
      ∃ fewer, t.follow true other place (front ++ back) = t.follow true fewer here back := by
  rcases follow_of_links h other with hsame | hloop
  · obtain ⟨fewer, hgo⟩ := follow_append t hsame
    exact .inr ⟨fewer, hgo true back hback⟩
  · exact .inl (follow_append_of_linkLoop hloop back)

/-! ## Open places -/

/-- Whether all names on the way to a place are those of directories. -/
def IsOpen (t : FileTree) (place : Place) : Prop :=
  ∀ way, way ≠ [] → way <+: place → t.entryAt? way = some .directory

namespace IsOpen

theorem nil : t.IsOpen [] := fun _ hne hway => absurd (List.prefix_nil.1 hway) hne

theorem concat {name : RawText} (h : t.IsOpen place)
    (hentry : t.entryAt? (place ++ [name]) = some .directory) : t.IsOpen (place ++ [name]) := by
  intro way hne hway
  rcases List.prefix_concat_iff.1 hway with rfl | hway
  · exact hentry
  · exact h way hne hway

theorem dropLast (h : t.IsOpen place) : t.IsOpen place.dropLast :=
  fun way hne hway => h way hne (hway.trans (List.dropLast_prefix place))

theorem linkStart (h : t.IsOpen place) (target : Path) : t.IsOpen (linkStart place target) := by
  unfold FileTree.linkStart
  split
  · exact .nil
  · exact h

/-- A route from an open place comes to open places. -/
theorem of_follow {pieces : List RawText} (h : t.IsOpen place)
    (hfollow : t.follow last links place pieces = .ok (.found here .directory)) :
    t.IsOpen here := by
  generalize hspot : Spot.found here .directory = spot at hfollow
  replace hfollow := Route.of_follow hfollow
  induction hfollow with
  | arrived =>
    cases hspot
    exact h
  | skipped _ _ ih => exact ih h hspot
  | up _ ih => exact ih h.dropLast hspot
  | vacant => cases hspot
  | directory _ _ hentry _ ih => exact ih (h.concat hentry) hspot
  | file => cases hspot
  | link => cases hspot
  | @through _ _ _ target _ _ _ _ _ _ _ ih => exact ih (h.linkStart target) hspot

/-- The way to an open place is followed name by name, unless a name is too long. -/
theorem follow_names {names : List RawText} (h : t.IsOpen (place ++ names))
    (hnames : ∀ s ∈ names, Path.IsName s) (back : List RawText) :
    t.follow last links place (names ++ back) = .error .nameTooLong ∨
      t.follow last links place (names ++ back) = t.follow last links (place ++ names) back := by
  induction names generalizing place with
  | nil => exact .inr (by rw [List.append_nil, List.nil_append])
  | cons name names ih =>
    have hentry : t.entryAt? (place ++ [name]) = some .directory :=
      h _ (by simp) ⟨names, (List.append_cons _ _ _).symm⟩
    rw [List.append_cons] at h
    rw [List.cons_append, follow_directory (isLookedUp_of_isName (hnames name List.mem_cons_self))
      hentry, List.append_cons place name names]
    split
    · exact .inl rfl
    · exact ih h fun s hs => hnames s (List.mem_cons_of_mem _ hs)

/-- The names on the way to an open place of a proper tree are names of entries. -/
theorem isName (h : t.IsOpen place) (ht : t.IsProper) : ∀ s ∈ place, Path.IsName s := by
  intro s hs
  have hne : place ≠ [] := List.ne_nil_of_mem hs
  exact ht.named _ (mem_entries_of_entryAt? hne (h place hne List.prefix_rfl)) s hs

end IsOpen

/-! ## Steps of a walk -/

theorem stat_root : t.stat ⟨[Path.slash]⟩ = .ok ([], .directory) := by
  have hsegments : Path.segments ⟨[Path.slash]⟩ = [[], []] := by decide
  have hfollow : t.follow true linkBudget [] [[], []] = .ok (.found [] .directory) := by
    rw [follow_skipped (.inl rfl), follow_skipped (.inl rfl), follow_nil]
  have hlocate : t.locate true ⟨[Path.slash]⟩ = .ok (.found [] .directory) := by
    rw [locate_of_isSound (by decide), start?, if_pos (by decide), hsegments]
    exact hfollow
  rw [stat, hlocate]

/-- Where a link leads to that stands in an open place, a route that comes to the link goes
on to. -/
theorem follow_of_stat_link (ht : t.IsProper) (hopen : t.IsOpen place) {name : RawText}
    (hname : Path.IsName name) {target : Path}
    (hlink : t.entryAt? (place ++ [name]) = some (.link target))
    (hstat : t.stat (pathOf (place ++ [name])) = .ok (here, entry)) :
    name.length ≤ maxNameLength ∧
      ∃ links, t.follow true links (linkStart place target) target.segments =
        .ok (.found here entry) := by
  have hnames : ∀ s ∈ place ++ [name], Path.IsName s :=
    List.forall_mem_append.2 ⟨hopen.isName ht, List.forall_mem_singleton.2 hname⟩
  rw [pathOf, Path.ofParts_plain] at hstat
  obtain ⟨links, hfollow⟩ := exists_follow_names stat_root (by decide) (by simp) hnames hstat
  have hfollow : t.follow true links place [name] = .ok (.found here entry) := by
    have hway : t.IsOpen ([] ++ place) := hopen
    have hgoes : t.follow true links [] (place ++ [name]) = .error .nameTooLong ∨
        t.follow true links [] (place ++ [name]) = t.follow true links place [name] :=
      hway.follow_names (hopen.isName ht) [name]
    rcases hgoes with hlong | hgo
    · rw [hlong] at hfollow
      cases hfollow
    · rw [← hfollow, hgo]
  have hlooked := isLookedUp_of_isName hname
  have hshort : name.length ≤ maxNameLength := by
    refine Nat.not_lt.1 fun hlong => ?_
    rw [follow_name hlooked, if_pos hlong] at hfollow
    cases hfollow
  cases links with
  | zero =>
    rw [follow_link_zero hlooked hshort hlink (Bool.and_false _)] at hfollow
    cases hfollow
  | succ fewer =>
    rw [follow_link_succ hlooked hshort hlink (Bool.and_false _), List.append_nil] at hfollow
    exact ⟨hshort, fewer, hfollow⟩

/-- Whether a route comes to a file, or is given up as too long. -/
inductive ComesToFile : Except FileFault Spot → Prop
  | file (place : Place) (content : Content) : ComesToFile (.ok (.found place (.file content)))
  | linkLoop : ComesToFile (.error .linkLoop)
  | nameTooLong : ComesToFile (.error .nameTooLong)

theorem ComesToFile.stat_ne_notFound {p : Path} (h : ComesToFile (t.locate true p)) :
    t.stat p ≠ .error .notFound := by
  unfold stat
  generalize t.locate true p = spot at h
  cases h <;> nofun

/-- Whether names lead from a place to a file, by however many links. -/
def LeadToFile (t : FileTree) (place : Place) (names : List RawText) : Prop :=
  ∀ links, ComesToFile (t.follow true links place names)

section Leads

variable {name : RawText} (hname : Path.IsName name)
include hname

/-- Names that lead from a directory to a file do so from the one that holds it. -/
theorem LeadToFile.of_directory (hentry : t.entryAt? (place ++ [name]) = some .directory)
    {names : List RawText} (h : t.LeadToFile (place ++ [name]) names) :
    t.LeadToFile place (name :: names) := by
  intro links
  rw [follow_directory (isLookedUp_of_isName hname) hentry]
  split
  · exact .nameTooLong
  · exact h links

theorem leadToFile_of_file {content : Content}
    (hentry : t.entryAt? (place ++ [name]) = some (.file content)) :
    t.LeadToFile place [name] := by
  intro links
  rw [follow_file (isLookedUp_of_isName hname) hentry]
  split
  · exact .nameTooLong
  · exact .file _ content

/-- Names that lead to a file from the directory that a link leads to do so from the one
that holds the link. -/
theorem LeadToFile.of_link (hshort : name.length ≤ maxNameLength) {target : Path}
    (hentry : t.entryAt? (place ++ [name]) = some (.link target)) {fewest : Nat}
    (hfollow : t.follow true fewest (linkStart place target) target.segments =
      .ok (.found here .directory)) {names : List RawText} (hne : names ≠ [])
    (h : t.LeadToFile here names) : t.LeadToFile place (name :: names) := by
  intro links
  cases links with
  | zero =>
    rw [follow_link_zero (isLookedUp_of_isName hname) hshort hentry (Bool.and_false _)]
    exact .linkLoop
  | succ links =>
    rw [follow_link_succ (isLookedUp_of_isName hname) hshort hentry (Bool.and_false _)]
    rcases follow_append_cases hfollow hne links with hloop | ⟨fewer, hgo⟩
    · exact hloop ▸ .linkLoop
    · exact hgo ▸ h fewer

theorem leadToFile_of_link (hshort : name.length ≤ maxNameLength) {target : Path}
    (hentry : t.entryAt? (place ++ [name]) = some (.link target)) {fewest : Nat}
    {content : Content} (hfollow : t.follow true fewest (linkStart place target) target.segments =
      .ok (.found here (.file content))) : t.LeadToFile place [name] := by
  intro links
  cases links with
  | zero =>
    rw [follow_link_zero (isLookedUp_of_isName hname) hshort hentry (Bool.and_false _)]
    exact .linkLoop
  | succ links =>
    rw [follow_link_succ (isLookedUp_of_isName hname) hshort hentry (Bool.and_false _),
      List.append_nil]
    rcases follow_of_links hfollow links with hsame | hloop
    · exact hsame ▸ .file here content
    · exact hloop ▸ .linkLoop

end Leads

/-- A name leads where a walk goes on by it: it is that of a file, or names that lead on to a
file do so behind it. -/
theorem leadToFile_of_enters (ht : t.IsProper) (hopen : t.IsOpen place) {inside : List Place}
    {name : RawText} (hname : Path.IsName name) {directory : Bool}
    (h : t.Enters inside place name here directory) :
    (directory = false → t.LeadToFile place [name]) ∧
      (directory = true → t.IsOpen here ∧
        ∀ names, names ≠ [] → t.LeadToFile here names → t.LeadToFile place (name :: names)) := by
  cases h with
  | directory hentry =>
    exact ⟨nofun, fun _ => ⟨hopen.concat hentry, fun names _ h => h.of_directory hname hentry⟩⟩
  | file hentry => exact ⟨fun _ => leadToFile_of_file hname hentry, nofun⟩
  | @linkToDirectory target _ hentry hstat _ =>
    obtain ⟨hshort, fewest, hfollow⟩ := follow_of_stat_link ht hopen hname hentry hstat
    refine ⟨nofun, fun _ => ⟨(hopen.linkStart target).of_follow hfollow, ?_⟩⟩
    exact fun names hne h => h.of_link hname hshort hentry hfollow hne
  | linkToFile hentry hstat =>
    obtain ⟨hshort, fewest, hfollow⟩ := follow_of_stat_link ht hopen hname hentry hstat
    exact ⟨fun _ => leadToFile_of_link hname hshort hentry hfollow, nofun⟩

/-! ## Every walk -/

/-- The names by which a walk comes to a file lead to a file. -/
theorem leadToFile_of_mem_walkFrom (ht : t.IsProper) {keep : Visit → Bool} {depth : Nat}
    {inside : List Place} {names : List RawText} (hopen : t.IsOpen place) {v : Visit}
    (hv : v ∈ t.walkFrom keep depth inside names place true) (hfile : v.directory = false) :
    ∃ rest, rest ≠ [] ∧ v.names = names ++ rest ∧ t.LeadToFile place rest := by
  induction depth generalizing inside names place with
  | zero =>
    rcases walkFrom_cases t keep 0 inside names place true with hw | hw | ⟨below, hd, -⟩
    · exact absurd (hw ▸ hv) List.not_mem_nil
    · rw [hw, List.mem_singleton] at hv
      rw [hv] at hfile
      cases hfile
    · cases hd
  | succ depth ih =>
    rcases walkFrom_cases t keep (depth + 1) inside names place true with
      hw | hw | ⟨below, hd, hw⟩
    · exact absurd (hw ▸ hv) List.not_mem_nil
    · rw [hw, List.mem_singleton] at hv
      rw [hv] at hfile
      cases hfile
    · obtain rfl := Nat.succ.inj hd
      rw [hw, List.mem_cons, List.mem_flatMap] at hv
      rcases hv with rfl | ⟨name, hname, hv⟩
      · cases hfile
      · obtain ⟨found, directory, henters, hv⟩ := mem_walkName_iff.1 hv
        obtain ⟨hleaf, hdown⟩ :=
          leadToFile_of_enters ht hopen (ht.isName_of_mem_namesIn hname) henters
        cases directory with
        | false =>
          have hself := (mem_walkFrom hv).2.resolve_right fun hbelow => nomatch hbelow.1
          exact ⟨[name], List.cons_ne_nil _ _, congrArg Visit.names hself, hleaf rfl⟩
        | true =>
          obtain ⟨hopen', hlead⟩ := hdown rfl
          obtain ⟨rest, hne, hnames, hrest⟩ := ih hopen' hv
          refine ⟨name :: rest, List.cons_ne_nil _ _, ?_, hlead rest hne hrest⟩
          rw [hnames, List.append_assoc, List.singleton_append]

/-- A path that cannot be looked up is refused, unless it is empty. -/
theorem stat_ne_notFound_of_not_isSound {p : Path} (h : ¬IsSound p) (hne : p.bytes ≠ []) :
    t.stat p ≠ .error .notFound := by
  unfold stat locate
  intro hstat
  by_cases hnull : p.bytes.contains 0 = true
  · rw [if_pos hnull] at hstat
    cases hstat
  · by_cases hlong : pathLengthLimit ≤ p.bytes.length
    · rw [if_neg hnull, if_neg hne, if_pos hlong] at hstat
      cases hstat
    · exact h ⟨by simpa using hnull, hne, Nat.not_le.1 hlong⟩

/-- The path of a file that a walk comes to may be too long to be followed, but it does not
lead to nothing. -/
theorem stat_ne_notFound_of_mem_walk (ht : t.IsProper) {keep : Visit → Bool} {root : Path}
    (habsolute : root.isAbsolute = true) {base : Place}
    (hroot : t.stat root = .ok (base, .directory)) {v : Visit} (hv : v ∈ t.walk keep root)
    (hfile : v.directory = false) :
    t.stat (v.names.foldl Path.child root) ≠ .error .notFound := by
  have hbytes : root.bytes ≠ [] := by
    intro hempty
    simp [Path.isAbsolute, hempty] at habsolute
  obtain ⟨names, hbelow, hnames⟩ := (ht.spreads_walk keep root).below v hv
  have hopen : t.IsOpen base := by
    obtain ⟨start, hstart, hfollow⟩ := exists_follow_of_stat hroot
    rw [start?, if_pos habsolute, Option.some.injEq] at hstart
    exact (hstart ▸ IsOpen.nil).of_follow hfollow
  have hbase : v ∈ t.walkFrom keep t.walkDepth [] [] base true := by
    rwa [walk, hroot] at hv
  obtain ⟨rest, hne, hrest, hlead⟩ := leadToFile_of_mem_walkFrom ht hopen hbase hfile
  rw [List.nil_append] at hbelow hrest
  rw [hrest]
  replace hnames : ∀ s ∈ rest, Path.IsName s := hrest ▸ hbelow.symm ▸ hnames
  by_cases hsound : IsSound (rest.foldl Path.child root)
  · obtain ⟨links, hlocate⟩ := exists_locate_names hroot hbytes hne hnames hsound
    exact (hlocate ▸ hlead links : ComesToFile _).stat_ne_notFound
  · refine stat_ne_notFound_of_not_isSound hsound fun hempty => ?_
    have hpath := Path.isAbsolute_join_of_isAbsolute habsolute (Path.ofNames rest)
    rw [← Path.foldl_child_eq_join hbytes hne hnames] at hpath
    simp [Path.isAbsolute, hempty] at hpath

end Marginalia.FileTree
