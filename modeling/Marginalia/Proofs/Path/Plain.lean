import Marginalia.Proofs.Path.Steps

set_option autoImplicit false

/-!
# Plain paths

An absolute path without dots and double dots is the root and names below it.
What is written from such parts has these parts again.
-/

namespace Marginalia.Path

open Marginalia.Text

/-- Whether parts are the root and names below it. -/
def IsPlain (ps : List Part) : Prop :=
  ∃ names : List RawText, ps = .root :: names.map .name ∧ ∀ s ∈ names, IsName s

/-! ## Following parts -/

/-- One more part leads from a plain place to a plain place. -/
theorem isPlain_follow {place : List Part} (h : IsPlain place.reverse) {part : Part}
    (hpart : part = .up ∨ ∃ s, part = .name s ∧ IsName s) :
    IsPlain (follow place part).reverse := by
  obtain ⟨names, hplace, hnames⟩ := h
  rcases hpart with rfl | ⟨s, rfl, hs⟩
  · rcases List.eq_nil_or_concat' names with rfl | ⟨front, last, rfl⟩
    · rw [List.reverse_eq_iff.1 hplace]
      exact ⟨[], rfl, fun _ hs => absurd hs List.not_mem_nil⟩
    · refine ⟨front, ?_, fun s hs => hnames s (List.mem_append_left _ hs)⟩
      rw [List.map_append, ← List.cons_append] at hplace
      rw [List.reverse_eq_iff.1 hplace, List.reverse_append]
      simp [follow]
  · refine ⟨names ++ [s], ?_, ?_⟩
    · simp [follow, hplace]
    · intro m hm
      rcases List.mem_append.1 hm with hm | hm
      · exact hnames m hm
      · rwa [List.mem_singleton.1 hm]

/-- Without dots and double dots an absolute path is the root and names below it. -/
theorem isPlain_plainParts {p : Path} (h : p.isAbsolute = true) : IsPlain p.plainParts := by
  have hall : ∀ (ps place : List Part), IsPlain place.reverse →
      (∀ part ∈ ps, part = .up ∨ ∃ s, part = .name s ∧ IsName s) →
      IsPlain (ps.foldl follow place).reverse := by
    intro ps
    induction ps with
    | nil => exact fun _ hplace _ => hplace
    | cons part ps ih =>
      intro place hplace hps
      exact ih _ (isPlain_follow hplace (hps part List.mem_cons_self))
        fun q hq => hps q (List.mem_cons_of_mem _ hq)
  rw [plainParts, parts_of_isAbsolute h, List.foldl_cons]
  exact hall _ _ ⟨[], rfl, fun _ hs => absurd hs List.not_mem_nil⟩ fun _ => mem_inner

/-! ## Writing plain parts -/

theorem ofParts_plain (names : List RawText) :
    ofParts (.root :: names.map .name) = names.foldl child ⟨[slash]⟩ := by
  simp only [ofParts, List.foldl_cons, List.foldl_map]
  rfl

/-- What stands before the first of some names stands before all of them. -/
theorem intercalate_append_cons (front s : RawText) (names : List RawText) :
    [slash].intercalate ((front ++ s) :: names) = front ++ [slash].intercalate (s :: names) := by
  cases names with
  | nil => rw [List.intercalate_singleton, List.intercalate_singleton]
  | cons next rest => simp only [List.intercalate_cons_cons, List.append_assoc]

/-- A path goes on with a name behind a slash. -/
theorem bytes_child {base : Path} {s : RawText} (hbase : base.bytes ≠ [])
    (hlast : base.bytes.getLast? ≠ some slash) (hs : IsName s) :
    (base.child s).bytes = base.bytes ++ slash :: s := by
  simp only [child, join, isAbsolute_of_isName hs, hbase, hlast, decide_false, Bool.or_self,
    Bool.false_eq_true, if_false]

theorem getLast?_append_ne {front s : RawText} (hs : IsName s) :
    (front ++ s).getLast? ≠ some slash := by
  rw [List.getLast?_append_of_ne_nil _ hs.1]
  exact fun hmem => hs.2.2.2 (List.mem_of_getLast? hmem)

/-- Names joined to a path that does not end in a slash are set off by slashes. -/
theorem bytes_foldl_child {names : List RawText} {base : Path} (hbase : base.bytes ≠ [])
    (hlast : base.bytes.getLast? ≠ some slash) (h : ∀ s ∈ names, IsName s) :
    (names.foldl child base).bytes = [slash].intercalate (base.bytes :: names) := by
  induction names generalizing base with
  | nil => exact List.intercalate_singleton.symm
  | cons s names ih =>
    have hs := h s List.mem_cons_self
    have hbytes := bytes_child hbase hlast hs
    have hend : (base.child s).bytes.getLast? ≠ some slash := by
      rw [hbytes, List.append_cons]
      exact getLast?_append_ne hs
    rw [List.foldl_cons, ih (bytes_child_ne hs) hend fun m hm => h m (List.mem_cons_of_mem _ hm),
      hbytes, List.intercalate_cons_cons, List.append_cons, intercalate_append_cons]

/-- An absolute path is written with a slash before each name. -/
theorem bytes_ofParts_plain {s : RawText} {names : List RawText} (h : ∀ n ∈ s :: names, IsName n) :
    (ofParts (.root :: (s :: names).map .name)).bytes = slash :: (ofNames (s :: names)).bytes := by
  have hs := h s List.mem_cons_self
  have hfirst : child ⟨[slash]⟩ s = ⟨[slash] ++ s⟩ := by
    simp only [child, join, isAbsolute_of_isName hs, Bool.false_eq_true, if_false]
    rfl
  have hbytes : (names.foldl child ⟨[slash] ++ s⟩).bytes =
      [slash].intercalate (([slash] ++ s) :: names) :=
    bytes_foldl_child (List.cons_ne_nil _ _) (getLast?_append_ne hs) fun m hm =>
      h m (List.mem_cons_of_mem _ hm)
  rw [ofParts_plain, List.foldl_cons, hfirst, hbytes, intercalate_append_cons]
  rfl

/-! ## Below another path -/

theorem stripParts_eq_some_iff {base ps rest : List Part} :
    stripParts base ps = some rest ↔ ps = base ++ rest := by
  induction base generalizing ps with
  | nil => simp [stripParts, eq_comm]
  | cons a base ih =>
    cases ps with
    | nil => simp [stripParts]
    | cons b ps =>
      by_cases hab : a = b
      · simp [stripParts, hab, ih]
      · simp [stripParts, hab, Ne.symm hab]

theorem stripParts_eq_none_iff {base ps : List Part} :
    stripParts base ps = none ↔ ¬base <+: ps := by
  simp only [Option.eq_none_iff_forall_ne_some, ne_eq, stripParts_eq_some_iff]
  exact ⟨fun h ⟨rest, hrest⟩ => h rest hrest.symm, fun h rest hrest => h ⟨rest, hrest.symm⟩⟩

/-! ## Names below another path -/

/-- Names one after the other are joined to a path as they are when they are written as a
path of their own. -/
theorem foldl_child_eq_join {names : List RawText} {base : Path} (hbase : base.bytes ≠ [])
    (hne : names ≠ []) (h : ∀ s ∈ names, IsName s) :
    names.foldl child base = base.join (ofNames names) := by
  obtain ⟨s, rest, rfl⟩ := List.exists_cons_of_ne_nil hne
  have hs := h s List.mem_cons_self
  obtain ⟨front, hjoin⟩ : ∃ front, ∀ p : Path, p.isAbsolute = false →
      base.join p = ⟨front ++ p.bytes⟩ := by
    by_cases hlast : base.bytes.getLast? = some slash
    · refine ⟨base.bytes, fun p hp => ?_⟩
      simp only [join, hp, hlast, decide_true, Bool.or_true, Bool.false_eq_true, if_true, if_false]
    · refine ⟨base.bytes ++ [slash], fun p hp => ?_⟩
      simp only [join, hp, hlast, hbase, decide_false, Bool.or_self, Bool.false_eq_true, if_false,
        List.append_assoc, List.singleton_append]
  have hfirst : base.child s = ⟨front ++ s⟩ := hjoin _ (isAbsolute_of_isName hs)
  have hbytes :
      (rest.foldl child ⟨front ++ s⟩).bytes = [slash].intercalate ((front ++ s) :: rest) :=
    bytes_foldl_child (hfirst ▸ bytes_child_ne hs) (getLast?_append_ne hs) fun m hm =>
      h m (List.mem_cons_of_mem _ hm)
  rw [intercalate_append_cons] at hbytes
  rw [hjoin _ (isAbsolute_ofNames h), List.foldl_cons, hfirst]
  exact congrArg Path.mk hbytes

/-- Names below a path are shown alone when they are seen from the path. -/
theorem relativeTo_foldl_child {names : List RawText} {base : Path} (hbase : base.bytes ≠ [])
    (h : ∀ s ∈ names, IsName s) :
    base.relativeTo (names.foldl child base) = (ofNames names).text := by
  rw [relativeTo, below?, parts_foldl_child hbase h, stripParts_eq_some_iff.2 rfl,
    Option.getD_some, joinParts_names_eq_text]

/-! ## Paths that are plain already -/

/-- Plain parts are as they are without dots and double dots. -/
theorem plainParts_of_isPlain {p : Path} (h : IsPlain p.parts) : p.plainParts = p.parts := by
  obtain ⟨names, hparts, -⟩ := h
  have hnames : ∀ (names : List RawText) (place : List Part),
      (names.map Part.name).foldl follow place = (names.map Part.name).reverse ++ place := by
    intro names
    induction names with
    | nil => exact fun _ => rfl
    | cons s names ih => exact fun place => by simp [follow, ih]
  rw [plainParts, hparts, List.foldl_cons, hnames]
  simp [follow]

/-- A name at the end of a path stays when its double dots go. -/
theorem plainParts_of_parts {p : Path} {front : List Part} {s : RawText}
    (h : p.parts = front ++ [.name s]) : ∃ before, p.plainParts = before ++ [.name s] :=
  ⟨(front.foldl follow []).reverse, by
    rw [plainParts, h, List.foldl_append, List.foldl_cons, List.foldl_nil]
    simp [follow]⟩

/-- What is written of a path seen from the root of a tree depends on its plain parts. -/
theorem plainRelativeTo_congr {p q : Path} (root : Path) (h : p.plainParts = q.plainParts) :
    root.plainRelativeTo p = root.plainRelativeTo q := by
  rw [plainRelativeTo, plainRelativeTo, h]

end Marginalia.Path
