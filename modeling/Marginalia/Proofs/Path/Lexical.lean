import Marginalia.Proofs.Path.Relative
import Mathlib.Data.List.Induction

set_option autoImplicit false

/-!
# Where a path leads by its letters

An absolute path is resolved piece by piece without a look at files: an empty piece and a
dot stay, two dots take the last name back and stop at the root of all paths, and a name
goes one down.  The parts of a path without dots and double dots are the root and the names
that it is resolved to.  So what is written of a path as seen from a source tree depends on
these names alone, and tells them as they are shown: if they are texts it leads back to them.
-/

namespace Marginalia.Path

open Marginalia.Text

/-! ## Resolving pieces -/

/-- The names below the root of all paths that some pieces lead to. -/
inductive Leads : List RawText → List RawText → Prop
  | start : Leads [] []
  | stay {pieces names : List RawText} {piece : RawText} (h : Leads pieces names)
      (hpiece : piece = [] ∨ piece = [dot]) : Leads (pieces ++ [piece]) names
  | up {pieces names : List RawText} (h : Leads pieces names) :
      Leads (pieces ++ [[dot, dot]]) names.dropLast
  | down {pieces names : List RawText} {piece : RawText} (h : Leads pieces names)
      (hpiece : IsName piece) : Leads (pieces ++ [piece]) (names ++ [piece])

/-- Whether a path is absolute and leads to some names by its letters. -/
def ResolvesTo (p : Path) (names : List RawText) : Prop :=
  p.isAbsolute = true ∧ Leads p.segments names

variable {p q root : Path} {pieces names names' base below : List RawText}

namespace Leads

theorem isName (h : Leads pieces names) : ∀ s ∈ names, IsName s := by
  induction h with
  | start => exact nofun
  | stay _ _ ih => exact ih
  | up _ ih => exact fun s hs => ih s (List.dropLast_subset _ hs)
  | down _ hpiece ih =>
    intro s hs
    rcases List.mem_append.1 hs with hs | hs
    · exact ih s hs
    · exact List.mem_singleton.1 hs ▸ hpiece

/-- Following the parts that pieces stand for comes to the names that the pieces lead to. -/
theorem foldl_follow (h : Leads pieces names) :
    (pieces.filterMap partOf?).foldl follow [.root] = (names.map Part.name).reverse ++ [.root] := by
  induction h with
  | start => rfl
  | @stay pieces names piece _ hpiece ih =>
    have hnone : partOf? piece = none := by
      rcases hpiece with rfl | rfl <;> rfl
    rw [List.filterMap_append, List.filterMap_cons_none hnone, List.filterMap_nil, List.append_nil,
      ih]
  | @up pieces names _ ih =>
    have hup : [[dot, dot]].filterMap partOf? = [.up] := rfl
    rw [List.filterMap_append, List.foldl_append, ih, hup, List.foldl_cons, List.foldl_nil]
    rcases List.eq_nil_or_concat' names with rfl | ⟨front, last, rfl⟩
    · rfl
    · simp [follow]
  | @down pieces names piece _ hpiece ih =>
    have hname : [piece].filterMap partOf? = [.name piece] :=
      List.filterMap_cons_some (partOf?_of_isName hpiece)
    rw [List.filterMap_append, List.foldl_append, ih, hname, List.foldl_cons, List.foldl_nil]
    simp [follow]

end Leads

/-- Pieces without slashes lead somewhere. -/
theorem exists_leads (h : ∀ piece ∈ pieces, slash ∉ piece) : ∃ names, Leads pieces names := by
  -- from the end of the pieces, where each way to lead on adds one
  induction pieces using List.reverseRecOn with
  | nil => exact ⟨[], .start⟩
  | append_singleton pieces piece ih =>
    obtain ⟨names, hnames⟩ := ih fun s hs => h s (List.mem_append_left _ hs)
    by_cases hstay : piece = [] ∨ piece = [dot]
    · exact ⟨names, hnames.stay hstay⟩
    · by_cases hup : piece = [dot, dot]
      · exact ⟨names.dropLast, hup ▸ hnames.up⟩
      · obtain ⟨hempty, hdot⟩ := not_or.1 hstay
        exact ⟨names ++ [piece], hnames.down
          ⟨hempty, hdot, hup, h piece (List.mem_append_right _ List.mem_cons_self)⟩⟩

/-! ## Resolving paths -/

theorem ResolvesTo.plainParts (h : p.ResolvesTo names) :
    p.plainParts = .root :: names.map .name := by
  rw [Path.plainParts, parts_of_isAbsolute h.1, List.foldl_cons]
  exact (congrArg List.reverse h.2.foldl_follow).trans (by simp)

/-- Every absolute path is resolved. -/
theorem exists_resolvesTo (h : p.isAbsolute = true) : ∃ names, p.ResolvesTo names := by
  obtain ⟨names, hnames⟩ := exists_leads fun piece => not_mem_of_mem_splitOn (s := p.bytes)
  exact ⟨names, h, hnames⟩

/-- A path is resolved to the names that its parts are without dots and double dots. -/
theorem resolvesTo_iff (hp : p.isAbsolute = true) :
    p.ResolvesTo names ↔ p.plainParts = .root :: names.map .name := by
  refine ⟨ResolvesTo.plainParts, fun h => ?_⟩
  obtain ⟨found, hfound⟩ := exists_resolvesTo hp
  rw [hfound.plainParts, List.cons.injEq,
    List.map_inj_right fun _ _ heq => Part.name.inj heq] at h
  exact h.2 ▸ hfound

theorem ResolvesTo.unique (h : p.ResolvesTo names) (h' : p.ResolvesTo names') : names = names' := by
  have heq := h.plainParts.symm.trans h'.plainParts
  rw [List.cons.injEq, List.map_inj_right fun _ _ heq => Part.name.inj heq] at heq
  exact heq.2

/-- The names of an absolute path are names of entries. -/
theorem isName_of_parts (h : p.parts = .root :: names.map .name) : ∀ s ∈ names, IsName s := by
  have hp : p.isAbsolute = true := (isAbsolute_iff_head? p).2 (by rw [h]; rfl)
  rw [parts_of_isAbsolute hp, List.cons.injEq] at h
  intro s hs
  have hmem : Part.name s ∈ p.inner := h.2 ▸ List.mem_map_of_mem hs
  rcases mem_inner hmem with hup | ⟨_, heq, hname⟩
  · cases hup
  · exact Part.name.inj heq ▸ hname

/-- A path without dots and double dots is resolved to its own names. -/
theorem resolvesTo_of_parts (h : p.parts = .root :: names.map .name) : p.ResolvesTo names := by
  rw [resolvesTo_iff ((isAbsolute_iff_head? p).2 (by rw [h]; rfl)), ← h]
  exact plainParts_of_isPlain ⟨names, h, isName_of_parts h⟩

/-! ## What is written of a path -/

/-- Names are shown alike if and only if they are the same when they are read again. -/
theorem map_shown_eq_iff : names.map RawText.shown = names'.map RawText.shown ↔
    names.map RawText.reread = names'.map RawText.reread := by
  have hreread : ∀ l : List RawText, l.map RawText.reread = (l.map RawText.shown).map Text.bytes :=
    fun l => List.map_map.symm
  rw [hreread, hreread, List.map_inj_right fun _ _ heq => RawText.bytes_injective heq]

/-- The whole of an absolute path is shown with a slash before each name. -/
theorem text_ofParts_plain (h : ∀ s ∈ names, IsName s) :
    (ofParts (.root :: names.map .name)).text = "/" ++ (ofNames names).text := by
  cases names with
  | nil => decide
  | cons s rest =>
    rw [text, bytes_ofParts_plain h]
    exact RawText.shown_append_ascii (a := slash) (by decide) [] _

/-- What is shown of the whole of an absolute path, as a path, has the names as they are
shown. -/
theorem parts_text_ofParts_plain (h : ∀ s ∈ names, IsName s) :
    parts ⟨(ofParts (.root :: names.map .name)).text⟩ =
      .root :: (names.map RawText.reread).map .name := by
  have hbytes : Text.bytes ("/" ++ (ofNames names).text) =
      [] ++ slash :: Text.bytes (joinParts (names.map .name)) := by
    rw [bytes_append, joinParts_names_eq_text]
    rfl
  have hinner : inner ⟨[] ++ slash :: Text.bytes (joinParts (names.map .name))⟩ =
      (names.map RawText.reread).map .name := by
    rw [inner, segments_append, List.filterMap_append, ← inner, ← inner,
      inner_joinParts (isStep_of_mem_names h), List.map_map, List.map_map]
    rfl
  rw [text_ofParts_plain h, hbytes, parts_of_isAbsolute rfl, hinner]

/-- The names that are told by what is written of a path: those of the root of the tree if
the path leads below it, and the others as they are shown. -/
def toldNames (base names : List RawText) : List RawText :=
  if base <+: names then base ++ (names.drop base.length).map RawText.reread
  else names.map RawText.reread

theorem toldNames_append (base below : List RawText) :
    toldNames base (base ++ below) = base ++ below.map RawText.reread := by
  rw [toldNames, if_pos (List.prefix_append _ _), List.drop_left]

/-- Texts are told as they are. -/
theorem toldNames_eq_self (h : ∀ s ∈ names, s.isText = true) : toldNames base names = names := by
  have hself : ∀ l : List RawText, (∀ s ∈ l, s.isText = true) → l.map RawText.reread = l :=
    fun l hl => (List.map_congr_left fun s hs => RawText.reread_eq_self_iff.2 (hl s hs)).trans
      (List.map_id l)
  unfold toldNames
  split
  · rename_i hfront
    obtain ⟨below, rfl⟩ := hfront
    rw [List.drop_left, hself below fun s hs => h s (List.mem_append_right _ hs)]
  · exact hself names h

section Written

variable (hroot : root.parts = .root :: base.map .name)

include hroot

/-- Below the root of a tree the names below it are written. -/
theorem plainRelativeTo_of_below (h : p.ResolvesTo (base ++ below)) :
    root.plainRelativeTo p = (ofNames below).text := by
  have hstrip : stripParts root.parts p.plainParts = some (below.map .name) :=
    stripParts_eq_some_iff.2 (by rw [h.plainParts, hroot, List.map_append]; rfl)
  rw [plainRelativeTo, hstrip]
  exact joinParts_names_eq_text below

theorem plainRelativeTo_of_not_below (h : p.ResolvesTo names) (hbase : ¬base <+: names) :
    root.plainRelativeTo p = (ofParts p.plainParts).text := by
  have hfront : ¬root.parts <+: p.plainParts := by
    rw [h.plainParts, hroot, List.cons_prefix_cons,
      List.prefix_map_iff_of_injective fun _ _ heq => Part.name.inj heq]
    exact fun hparts => hbase hparts.2
  rw [plainRelativeTo, stripParts_eq_none_iff.2 hfront]

/-- Elsewhere all names are written, with a slash before each. -/
theorem plainRelativeTo_of_elsewhere (h : p.ResolvesTo names) (hbase : ¬base <+: names) :
    root.plainRelativeTo p = "/" ++ (ofNames names).text := by
  rw [plainRelativeTo_of_not_below hroot h hbase, h.plainParts, text_ofParts_plain h.2.isName]

/-- What is written of a path is absolute if and only if the path leads elsewhere. -/
theorem isAbsolute_plainRelativeTo_iff (h : p.ResolvesTo names) :
    isAbsolute ⟨root.plainRelativeTo p⟩ = true ↔ ¬base <+: names := by
  by_cases hbase : base <+: names
  · obtain ⟨below, rfl⟩ := hbase
    have hbelow : ∀ s ∈ below, IsName s := fun s hs => h.2.isName s (List.mem_append_right _ hs)
    rw [plainRelativeTo_of_below hroot h, ← joinParts_names_eq_text,
      isAbsolute_joinParts (isStep_of_mem_names hbelow)]
    exact iff_of_false nofun (not_not_intro (List.prefix_append _ _))
  · rw [plainRelativeTo_of_elsewhere hroot h hbase, bytes_append]
    exact iff_of_true rfl hbase

/-- What is written of a path leads to the names that it tells when it is seen from the root
of the tree. -/
theorem resolvesTo_join {here : Path} (hhere : here.parts = root.parts)
    (h : p.ResolvesTo names) :
    (here.join ⟨root.plainRelativeTo p⟩).ResolvesTo (toldNames base names) := by
  have hnames := h.2.isName
  by_cases hbase : base <+: names
  · obtain ⟨below, rfl⟩ := hbase
    have hsteps := isStep_of_mem_names fun s hs => hnames s (List.mem_append_right _ hs)
    have hbytes : here.bytes ≠ [] := by
      intro hempty
      rw [hroot, parts_eq_nil_iff.2 hempty] at hhere
      cases hhere
    refine resolvesTo_of_parts ?_
    rw [plainRelativeTo_of_below hroot h, ← joinParts_names_eq_text,
      parts_join hbytes (isAbsolute_joinParts hsteps), inner_joinParts hsteps, hhere, hroot,
      toldNames_append, List.map_append, List.cons_append, List.map_map, List.map_map]
    rfl
  · -- the text is absolute and stands for itself wherever it is seen from
    have hparts :
        parts ⟨root.plainRelativeTo p⟩ = .root :: (names.map RawText.reread).map .name := by
      rw [plainRelativeTo_of_not_below hroot h hbase, h.plainParts, parts_text_ofParts_plain hnames]
    rw [join, if_pos ((isAbsolute_plainRelativeTo_iff hroot h).2 hbase), toldNames, if_neg hbase]
    exact resolvesTo_of_parts hparts

/-- The same is written of two paths if and only if both lead below the root or neither does,
and the names that they lead to are shown alike. -/
theorem plainRelativeTo_eq_iff (hp : p.ResolvesTo names) (hq : q.ResolvesTo names') :
    root.plainRelativeTo p = root.plainRelativeTo q ↔
      (base <+: names ↔ base <+: names') ∧ names.map RawText.shown = names'.map RawText.shown := by
  constructor
  · intro heq
    have hfront : base <+: names ↔ base <+: names' := by
      rw [← not_iff_not, ← isAbsolute_plainRelativeTo_iff hroot hp, heq,
        isAbsolute_plainRelativeTo_iff hroot hq]
    have htold := (heq ▸ resolvesTo_join hroot rfl hp).unique (resolvesTo_join hroot rfl hq)
    refine ⟨hfront, map_shown_eq_iff.2 ?_⟩
    by_cases hbase : base <+: names
    · obtain ⟨below', rfl⟩ := hfront.1 hbase
      obtain ⟨below, rfl⟩ := hbase
      rw [toldNames_append, toldNames_append, List.append_cancel_left_eq] at htold
      rw [List.map_append, List.map_append, htold]
    · rwa [toldNames, if_neg hbase, toldNames, if_neg (mt hfront.2 hbase)] at htold
  · rintro ⟨hfront, hshown⟩
    have htext : ∀ {l l' : List RawText}, l.map RawText.shown = l'.map RawText.shown →
        (ofNames l).text = (ofNames l').text := fun {l l'} heq => by
      rw [← joinParts_names_eq_text, ← joinParts_names_eq_text, joinParts_names, heq,
        ← joinParts_names]
    by_cases hbase : base <+: names
    · obtain ⟨below', rfl⟩ := hfront.1 hbase
      obtain ⟨below, rfl⟩ := hbase
      rw [List.map_append, List.map_append, List.append_cancel_left_eq] at hshown
      rw [plainRelativeTo_of_below hroot hp, plainRelativeTo_of_below hroot hq, htext hshown]
    · rw [plainRelativeTo_of_elsewhere hroot hp hbase,
        plainRelativeTo_of_elsewhere hroot hq (mt hfront.2 hbase), htext hshown]

/-- What is written of a path is written again when the text is taken as a path, unless it
leads below the root of the tree and the path does not. -/
theorem plainRelativeTo_join_iff {here : Path} (hhere : here.parts = root.parts)
    (h : p.ResolvesTo names) :
    root.plainRelativeTo (here.join ⟨root.plainRelativeTo p⟩) = root.plainRelativeTo p ↔
      (base <+: names ↔ base <+: toldNames base names) := by
  have hshown : (toldNames base names).map RawText.shown = names.map RawText.shown := by
    have hreread : ∀ l : List RawText,
        (l.map RawText.reread).map RawText.shown = l.map RawText.shown :=
      fun l => by
        rw [List.map_map]
        exact List.map_congr_left fun s _ => RawText.shown_reread s
    unfold toldNames
    split
    · rename_i hfront
      obtain ⟨below, rfl⟩ := hfront
      rw [List.drop_left, List.map_append, List.map_append, hreread]
    · exact hreread names
  rw [plainRelativeTo_eq_iff hroot (resolvesTo_join hroot hhere h) h, and_iff_left hshown]
  exact iff_comm

end Written

end Marginalia.Path
