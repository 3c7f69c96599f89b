import Marginalia.Proofs.Language.Registry
import Marginalia.Proofs.Language.Scan

set_option autoImplicit false

/-!
# The comments of the languages that come with the library

All patterns of these languages are fences.  So what an extractor finds is what one
scan of the text finds, exactly as long as no match is hidden.  A file whose line
comment holds the opening of a block is one where the next block comment is hidden.
-/

namespace Marginalia.Language

open Marginalia.Pattern (CharSet Fence Machine Options Step)

/-! ## The patterns as fences -/

/-- The steps that read a text. -/
def literally (text : String) : List Step := text.toList.map fun c => .char (.single c)

/-- All characters but the line feed. -/
def withinLine : CharSet := ⟨[(0, 9), (11, CharSet.lastPoint)]⟩

/-- A comment that goes on up to the end of its line. -/
def toLineEnd (opening : String) : Fence := ⟨literally opening, withinLine, [], true⟩

/-- A comment that goes on up to the nearest text that closes it. -/
def upTo (filler : CharSet) (opening closing : String) : Fence :=
  ⟨literally opening, filler, literally closing, false⟩

/-- The patterns that look at single lines, with what they look for. -/
def lineFences : List (String × Fence) :=
  [(slashLine, toLineEnd "//"),
   (hashLine, toLineEnd "#"),
   (dashLine, toLineEnd "--"),
   (markupComment, upTo withinLine "<!--" "-->")]

/-- The patterns that look across lines, with what they look for. -/
def blockFences : List (String × Fence) :=
  [(starBlock, upTo .any "/*" "*/"),
   (markupComment, upTo .any "<!--" "-->"),
   ("\\\x7b-.*?-\\\x7d", upTo .any "\x7b-" "-\x7d"),
   ("--\\[\\[.*?\\]\\]", upTo .any "--[[" "]]"),
   ("(?m)^=begin.*?^=end",
     ⟨.anchor .lineStart :: literally "=begin", .any,
      .anchor .lineStart :: literally "=end", false⟩)]

/-- Whether a pattern denotes a machine that is laid out as a fence is. -/
def denotes (o : Options) (pattern : String) (f : Fence) : Bool :=
  (Machine.read? o pattern).any fun m => decide (m.IsFence f)

theorem denotes_lineFences : ∀ e ∈ lineFences, denotes {} e.1 e.2 = true := by
  decide +kernel

theorem denotes_blockFences : ∀ e ∈ blockFences, denotes { dotAll := true } e.1 e.2 = true := by
  decide +kernel

theorem patterns_of_mem_builtinRules : ∀ rule ∈ builtinRules,
    rule.lines ⊆ lineFences.map (·.1) ∧ rule.blocks ⊆ blockFences.map (·.1) := by
  decide

theorem exists_mapM_read? {o : Options} {fences : List (String × Fence)}
    (hfences : ∀ e ∈ fences, denotes o e.1 e.2 = true) {patterns : List String}
    (hpatterns : patterns ⊆ fences.map (·.1)) :
    ∃ machines, patterns.mapM (Machine.read? o) = some machines ∧
      ∀ m ∈ machines, ∃ e ∈ fences, m.IsFence e.2 := by
  induction patterns with
  | nil =>
    refine ⟨[], rfl, ?_⟩
    intro m hm
    exact absurd hm List.not_mem_nil
  | cons pattern patterns ih =>
    obtain ⟨hthis, hrest⟩ := List.cons_subset.1 hpatterns
    obtain ⟨machines, hread, hall⟩ := ih hrest
    obtain ⟨e, he, rfl⟩ := List.mem_map.1 hthis
    have hdenotes := hfences e he
    unfold denotes at hdenotes
    rw [Option.any_eq_true] at hdenotes
    obtain ⟨m, hm, hfence⟩ := hdenotes
    refine ⟨m :: machines, ?_, ?_⟩
    · rw [List.mapM_cons, hm, hread]
      rfl
    · intro m' hm'
      rcases List.mem_cons.1 hm' with rfl | hm'
      · exact ⟨e, he, of_decide_eq_true hfence⟩
      · exact hall m' hm'

/-- The rules that come with the library can be read, and their patterns are these fences. -/
theorem exists_machines_of_fences {rule : Rule} (hrule : rule ∈ builtinRules) :
    ∃ machines, rule.machines? = some machines ∧
      ∀ m ∈ machines, ∃ e ∈ lineFences ++ blockFences, m.IsFence e.2 := by
  obtain ⟨hlines, hblocks⟩ := patterns_of_mem_builtinRules rule hrule
  obtain ⟨lines, hreadLines, hlines⟩ := exists_mapM_read? denotes_lineFences hlines
  obtain ⟨blocks, hreadBlocks, hblocks⟩ := exists_mapM_read? denotes_blockFences hblocks
  refine ⟨lines ++ blocks, ?_, ?_⟩
  · unfold Rule.machines? Rule.compile?
    rw [hreadLines, hreadBlocks]
    rfl
  · intro m hm
    rcases List.mem_append.1 hm with hm | hm
    · obtain ⟨e, he, hfence⟩ := hlines m hm
      exact ⟨e, List.mem_append_left _ he, hfence⟩
    · obtain ⟨e, he, hfence⟩ := hblocks m hm
      exact ⟨e, List.mem_append_right _ he, hfence⟩

/-- The rules that come with the library can be read, and their patterns are fences. -/
theorem exists_machines {rule : Rule} (hrule : rule ∈ builtinRules) :
    ∃ machines, rule.machines? = some machines ∧ ∀ m ∈ machines, ∃ f, m.IsFence f := by
  obtain ⟨machines, hread, hfences⟩ := exists_machines_of_fences hrule
  refine ⟨machines, hread, fun m hm => ?_⟩
  obtain ⟨e, -, hfence⟩ := hfences m hm
  exact ⟨e.2, hfence⟩

theorem mapM_spans (o : Options) (patterns : List String) :
    patterns.mapM (machineEngine o) =
      (patterns.mapM (Machine.read? o)).map fun machines => machines.map (·.spans) := by
  induction patterns with
  | nil => rfl
  | cons pattern patterns ih =>
    rw [List.mapM_cons, List.mapM_cons, ih, machineEngine]
    cases Machine.read? o pattern with
    | none => rfl
    | some m =>
      cases patterns.mapM (Machine.read? o) with
      | none => rfl
      | some machines => rfl

/-- The finders of a rule that machines are run for. -/
theorem compile?_machineEngine (rule : Rule) :
    rule.compile? machineEngine = rule.machines?.map fun machines => machines.map (·.spans) := by
  rw [Rule.machines?, Rule.compile?, Rule.compile?, mapM_spans, mapM_spans]
  cases rule.lines.mapM (Machine.read? {}) with
  | none => rfl
  | some lines =>
    cases rule.blocks.mapM (Machine.read? { dotAll := true }) with
    | none => rfl
    | some blocks =>
      simp only [Option.map_some, Option.bind_eq_bind, Option.bind_some, List.map_append]

theorem ofRule?_eq_of_machines? {rule : Rule} {machines : List Machine}
    (hread : rule.machines? = some machines) : Extractor.ofRule? rule =
      some (.ofFinders rule.name (machines.map (·.spans))) := by
  rw [Extractor.ofRule?, Extractor.ofRuleBy?, compile?_machineEngine, hread, Option.map_some,
    Option.map_some]

theorem exists_ofRule? {rule : Rule} (hrule : rule ∈ builtinRules) :
    ∃ x, Extractor.ofRule? rule = some x := by
  obtain ⟨machines, hread, -⟩ := exists_machines hrule
  exact ⟨_, ofRule?_eq_of_machines? hread⟩

theorem normalExtension_of_mem_builtinRules : ∀ rule ∈ builtinRules, ∀ extension ∈ rule.extensions,
    normalExtension extension = extension := by
  decide

/-- Every language that comes with the library is found under its extensions. -/
theorem get?_standard {rule : Rule} (hrule : rule ∈ builtinRules) {extension : String}
    (hextension : extension ∈ rule.extensions) :
    Registry.standard.get? extension = Extractor.ofRule? rule := by
  have hnormal := normalExtension_of_mem_builtinRules
  have hplain : builtinRules.Pairwise fun a b =>
      ∀ extension ∈ a.extensions, extension ∉ b.extensions := by
    decide
  have hapart : builtinRules.Pairwise fun a b => ∀ extension ∈ a.extensions,
      normalExtension extension ∉ b.extensions.map normalExtension := by
    refine (List.Pairwise.and_mem.1 hplain).imp ?_
    rintro a b ⟨ha, hb, hab⟩ x hx hmem
    obtain ⟨y, hy, heq⟩ := List.mem_map.1 hmem
    rw [hnormal b hb y hy, hnormal a ha x hx] at heq
    exact hab x hx (heq ▸ hy)
  have hpython : normalExtension extension ≠ normalExtension "py" := by
    rw [hnormal rule hrule extension hextension, show normalExtension "py" = "py" by decide]
    rintro rfl
    exact absurd ⟨rule, hrule, hextension⟩
      (show ¬∃ rule ∈ builtinRules, "py" ∈ rule.extensions by decide)
  rw [Registry.standard, Registry.get?_register, if_neg hpython]
  exact Registry.get?_foldl_registerRule (fun _ => exists_ofRule?) hapart hrule hextension _

theorem mem_extensions_standard {rule : Rule} (hrule : rule ∈ builtinRules) {extension : String}
    (hextension : extension ∈ rule.extensions) :
    normalExtension extension ∈ Registry.standard.extensions := by
  obtain ⟨x, hx⟩ := exists_ofRule? hrule
  exact (Registry.mem_extensions_iff _ _).2 ⟨x, (get?_standard hrule hextension).trans hx⟩

theorem get?_standard_python : Registry.standard.get? "py" = some .python := by
  rw [Registry.standard, Registry.get?_register, if_pos rfl]

theorem isEmpty_standard : Registry.standard.isEmpty = false := by
  have hpython := (Registry.mem_extensions_iff _ _).2 ⟨_, get?_standard_python⟩
  rw [Registry.isEmpty, Index.isEmpty, List.isEmpty_eq_false_iff]
  intro hnil
  rw [Registry.extensions, Index.keys, hnil] at hpython
  cases hpython

/-! ## The scan of a language -/

/-- What is chosen from the matches of a language's patterns is what one scan takes
exactly when the scan takes nothing hidden; and then the extractor's comments are
those of the scan.  The comments alone may agree with the scan on other texts too,
as the blanks after a comment are not part of it. -/
theorem selected_eq_scan_iff {rule : Rule} (hrule : rule ∈ builtinRules) :
    ∃ machines, rule.machines? = some machines ∧ ∀ text : String,
      (selected (machines.map (·.spans)) text.toList = scan machines text.toList ↔
        ∀ u ∈ scan machines text.toList, ¬Hidden machines text.toList u) ∧
      ((∀ u ∈ scan machines text.toList, ¬Hidden machines text.toList u) →
        ∀ filepath tags, (Extractor.ofRule? rule).bind (·.extract filepath text tags) =
          some ((scan machines text.toList).map (commentOf filepath tags))) := by
  obtain ⟨machines, hread, hfences⟩ := exists_machines hrule
  refine ⟨machines, hread, ?_⟩
  intro text
  have hiff := selected_eq_scan_iff_of_fences hfences text.toList
  refine ⟨hiff, ?_⟩
  intro hseen filepath tags
  simp only [ofRule?_eq_of_machines? hread, Option.bind_some, Extractor.ofFinders,
    patternComments, hiff.2 hseen]

/-- The rule of C. -/
def cRule : Rule := braceRule "c" ["c", "h"]

theorem selected_eq_scan_iff_cRule :
    cRule ∈ builtinRules ∧
    ∃ machines, cRule.machines? = some machines ∧ ∀ text : String,
      (selected (machines.map (·.spans)) text.toList = scan machines text.toList ↔
        ∀ u ∈ scan machines text.toList, ¬Hidden machines text.toList u) ∧
      ((∀ u ∈ scan machines text.toList, ¬Hidden machines text.toList u) →
        ∀ filepath tags, (Extractor.ofRule? cRule).bind (·.extract filepath text tags) =
          some ((scan machines text.toList).map (commentOf filepath tags))) := by
  have hc : cRule ∈ builtinRules := by decide
  exact ⟨hc, selected_eq_scan_iff hc⟩

/-! ## Small texts -/

/-- The comments of a text whose matches come in the order in which they are chosen. -/
theorem extract_of_sorted {rule : Rule} (hrule : rule ∈ builtinRules) {filepath text : String}
    {tags : TagSet} {comments : List Comment}
    (hsorted : (rule.machines?.all fun machines =>
      decide ((machines.flatMap (·.spans text.toList)).Pairwise fun a b =>
        comesFirst a b = true)) = true)
    (hchosen : rule.machines?.map (fun machines =>
      (disjointFrom 0 (machines.flatMap (·.spans text.toList))).map (commentOf filepath tags)) =
        some comments) :
    (Extractor.ofRule? rule).bind (·.extract filepath text tags) = some comments := by
  obtain ⟨machines, hread, -⟩ := exists_machines hrule
  rw [hread, Option.all_some] at hsorted
  have hcandidates : candidates (machines.map (·.spans)) text.toList =
      machines.flatMap (·.spans text.toList) := by
    rw [candidates, found_spans]
    exact List.mergeSort_of_pairwise (of_decide_eq_true hsorted)
  rw [hread, Option.map_some, ← hcandidates] at hchosen
  rw [ofRule?_eq_of_machines? hread]
  exact hchosen

/-! ## A comment that is lost -/

/-- A line comment that holds the opening of a block, and a block below it. -/
def globText : String := "// src/*.c\n/* TODO x */\n"

/-- The block is lost: the search for blocks goes from the opening in the line comment
to the end of the block, and this match is not taken as it starts in the line comment. -/
theorem extract_globText :
    (Extractor.ofRule? cRule).bind (·.extract "a.c" globText .standard) =
        some [⟨"a.c", "// src/*.c", 1, .note, false⟩] ∧
      cRule.machines?.map (fun machines =>
          (scan machines globText.toList).map (commentOf "a.c" .standard)) =
        some [⟨"a.c", "// src/*.c", 1, .note, false⟩,
          ⟨"a.c", "/* TODO x */", 2, .todo, false⟩] := by
  constructor
  · exact extract_of_sorted (by decide) (by decide +kernel) (by decide +kernel)
  · decide +kernel

end Marginalia.Language
