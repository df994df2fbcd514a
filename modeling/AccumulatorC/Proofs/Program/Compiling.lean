import AccumulatorC.Compile
import AccumulatorC.Proofs.Lowering.OuterLabels
import AccumulatorC.Proofs.Program.Parser.Sources

/-!
# Compiled programs

The lines of a program come from tokens, and these from the text of a file or from a text by itself.
So the names of items are words, and a label is written with a dot in front exactly if it belongs to
the last one without.
-/

namespace AccumulatorC

/-- Tokens that are read from a file, or from a text by itself, with everything that is included. -/
def FileTree.Reads (tree : FileTree) (source : List (Located Token)) : Prop :=
  (∃ path, tree.tokens path = .ok source) ∨
    ∃ name text directory, tree.textTokens name text directory = .ok source

/-- A program that is compiled: its tokens, what is read from them, and its lines. -/
structure FileTree.Compiles (tree : FileTree) (source : List (Located Token)) (parsed : Parsed)
    (lines : List Line) : Prop where
  reads : tree.Reads source
  parses : Program.ofTokens source = .ok parsed
  lowers : parsed.program.lines = .ok lines

/-- A tree without files. -/
def FileTree.bare : FileTree := ⟨[], [], []⟩

/-! ## Compilations -/

theorem parseTokens_eq_ok {tokens : Except (List (Located LexError)) (List (Located Token))}
    {parsed : Parsed} (h : parseTokens tokens = .ok parsed) :
    ∃ source, tokens = .ok source ∧ Program.ofTokens source = .ok parsed := by
  unfold parseTokens at h
  split at h
  · cases h
  next source =>
    split at h
    · cases h
    next hparsed =>
      cases h
      exact ⟨source, rfl, hparsed⟩

theorem compileTokens_eq_ok {options : Options}
    {tokens : Except (List (Located LexError)) (List (Located Token))} {compiled : Compiled}
    (h : compileTokens options tokens = .ok compiled) :
    ∃ source parsed, tokens = .ok source ∧ Program.ofTokens source = .ok parsed ∧
      parsed.program.lines = .ok compiled.assembly.lines := by
  unfold compileTokens at h
  split at h
  · cases h
  next parsed hparsed =>
    split at h
    · cases h
    next hlines =>
      cases h
      obtain ⟨source, hsource, hparsed⟩ := parseTokens_eq_ok hparsed
      exact ⟨source, parsed, hsource, hparsed, hlines⟩

/-- The warnings of a compiled program are those of reading it. -/
theorem compileTokens_warnings {options : Options} {tokens : List (Located Token)}
    {compiled : Compiled} (h : compileTokens options (.ok tokens) = .ok compiled) :
    ∃ parsed, Program.ofTokens tokens = .ok parsed ∧ compiled.warnings = parsed.warnings := by
  unfold compileTokens at h
  split at h
  · cases h
  next parsed hparsed =>
    split at h
    · cases h
    next =>
      cases h
      obtain ⟨source, hsource, hparsed⟩ := parseTokens_eq_ok hparsed
      cases hsource
      exact ⟨parsed, hparsed, rfl⟩

/-- What keeps tokens from being compiled keeps them from being read as a program, or the program
from being lowered. -/
theorem compileTokens_eq_error {options : Options} {tokens : List (Located Token)}
    {stop : Stop Diagnostics} (h : compileTokens options (.ok tokens) = .error stop) :
    (∃ cause, Program.ofTokens tokens = .error cause ∧
        stop = cause.diagnostics ParseError.message) ∨
      ∃ parsed cause, Program.ofTokens tokens = .ok parsed ∧
        parsed.program.lines = .error cause ∧ stop = cause.diagnostics LowerError.message := by
  rw [compileTokens, parseTokens] at h
  cases hparsed : Program.ofTokens tokens with
  | error cause =>
      rw [hparsed] at h
      cases h
      exact .inl ⟨cause, rfl, rfl⟩
  | ok parsed =>
      rw [hparsed] at h
      cases hlines : parsed.program.lines with
      | error cause =>
          simp only [hlines] at h
          cases h
          exact .inr ⟨parsed, cause, rfl, hlines, rfl⟩
      | ok lines =>
          simp only [hlines] at h
          cases h

section Sources

variable {options : Options} {obstacle : Option Breakdown}
  {tokens : Except (List (Located LexError)) (List (Located Token))} {compiled : Compiled}

theorem counted_eq_ok {result : Compiled} : compiled.counted = .ok result ↔
    compiled.assembly.lines.all Line.isCounted = true ∧ compiled = result := by
  rw [Compiled.counted]
  cases compiled.assembly.lines.all Line.isCounted <;> simp

/-- Sources are compiled exactly if they can be read to their end, their tokens are compiled, and
there are not too many labels. -/
theorem compileSources_eq_ok : compileSources options obstacle tokens = .ok compiled ↔
    obstacle = none ∧ compileTokens options tokens = .ok compiled ∧
      compiled.assembly.lines.all Line.isCounted = true := by
  cases obstacle with
  | some cause => simp [compileSources]
  | none =>
      rw [compileSources, bind_eq_ok]
      constructor
      · rintro ⟨found, hfound, hcounted⟩
        obtain ⟨hall, rfl⟩ := counted_eq_ok.mp hcounted
        exact ⟨rfl, hfound, hall⟩
      · rintro ⟨-, hcompiled, hall⟩
        exact ⟨compiled, hcompiled, counted_eq_ok.mpr ⟨hall, rfl⟩⟩

theorem compileTokens_of_sources (h : compileSources options obstacle tokens = .ok compiled) :
    compileTokens options tokens = .ok compiled := (compileSources_eq_ok.mp h).2.1

/-- What is diagnosed is diagnosed of the tokens. -/
theorem compileTokens_of_diagnosis {diagnostics : Diagnostics}
    (h : compileSources options obstacle tokens = .error (.diagnosis diagnostics)) :
    compileTokens options tokens = .error (.diagnosis diagnostics) := by
  cases obstacle with
  | some cause => cases h
  | none =>
      rcases bind_eq_error.mp h with htokens | ⟨compiled, -, hcounted⟩
      · exact htokens
      · rw [Compiled.counted] at hcounted
        split at hcounted <;> cases hcounted

end Sources

namespace FileTree

variable {tree : FileTree} {options : Options} {compiled : Compiled}

/-- Whatever is compiled from a text comes about in this way. -/
theorem compiles_of_compileText {text : String} (h : tree.compileText options text = .ok compiled) :
    ∃ source parsed, tree.Compiles source parsed compiled.assembly.lines := by
  obtain ⟨source, parsed, hsource, hparsed, hlines⟩ :=
    compileTokens_eq_ok (compileTokens_of_sources h)
  exact ⟨source, parsed, .inr ⟨_, _, _, hsource⟩, hparsed, hlines⟩

/-- The identifiers of a source are words. -/
theorem Reads.isWord {source : List (Located Token)} (h : tree.Reads source) {name : String}
    (hname : .identifier name ∈ source.map (·.value)) : IsWord name := by
  have hwords : ∀ token ∈ source, ∀ name, token.value = .identifier name → IsWord name := by
    rcases h with ⟨path, hsource⟩ | ⟨_, _, _, hsource⟩
    · exact FileTree.tokens_holds Lexeme.readOnly_isWord hsource
    · exact FileTree.textTokens_holds Lexeme.readOnly_isWord hsource
  obtain ⟨token, hmem, htoken⟩ := List.mem_map.mp hname
  exact hwords token hmem name htoken

end FileTree

/-! ## Names -/

/-- The name of an item stands in the source. -/
theorem Program.ofTokens_name_mem {tokens : List (Located Token)} {parsed : Parsed}
    (h : Program.ofTokens tokens = .ok parsed) {item : Item} (hmem : item ∈ parsed.program.items) :
    .identifier item.name ∈ tokens.map (·.value) := by
  obtain ⟨after, hread, -, hscopes⟩ := ofTokens_reads h
  have hcome := (ofTokens_written h).2
  have hname : item.name ∈ after.scopes.names := by
    rw [hread.names]
    exact List.mem_append_left _ (List.mem_reverse.mpr (List.mem_map_of_mem hmem))
  obtain ⟨symbols, hroot⟩ := hread.global.wellFormed.root
  rw [Scopes.names, hroot] at hname
  obtain ⟨symbol, hsymbol, hsame⟩ := List.mem_map.mp hname
  rw [hscopes] at hcome
  rw [← hsame]
  exact (hcome _ (List.mem_of_getElem? hroot) symbol hsymbol).name

/-- A function is not defined elsewhere. -/
theorem Function.WellFormed.storage_ne {scopes : Scopes} (hwf : scopes.WellFormed)
    {function : Function} (h : function.WellFormed scopes) :
    function.symbol.storage ≠ .external := by
  intro hexternal
  obtain ⟨result, types, -, htype, -⟩ := h.signature
  obtain ⟨table, -, -, hplace⟩ := h.visible.places hwf
  rw [Scope.Places, hexternal] at hplace
  rw [htype] at hplace
  cases hplace

/-- Every function and every variable that is not defined elsewhere has a label of its name. -/
theorem Program.WellFormed.symbol_mem_outerLabels {program : Program} (h : program.WellFormed)
    {name : String} : .symbol name ∈ program.outerLabels ↔
      ∃ item ∈ program.items, item.symbol.storage ≠ .external ∧ item.name = name := by
  rw [Program.mem_outerLabels]
  constructor
  · rintro (hown | ⟨earlier, item, later, hitems, hl⟩)
    · simp at hown
    · refine ⟨item, by simp [hitems], ?_, Item.name_of_symbol_mem_outerLabels hl⟩
      cases item with
      | global declared =>
          intro hexternal
          simp only [Item.symbol] at hexternal
          simp [Item.outerLabels, hexternal] at hl
      | function defined => exact (h.functions defined (by simp [hitems])).storage_ne h.scopes
  · rintro ⟨item, hmem, hown, rfl⟩
    obtain ⟨earlier, later, hitems⟩ := List.append_of_mem hmem
    refine .inr ⟨earlier, item, later, hitems, ?_⟩
    cases item with
    | global declared =>
        simp only [Item.symbol] at hown
        simp [Item.outerLabels, hown, Item.name]
    | function defined => simp [Item.outerLabels, Item.name]

/-! ## Written labels -/

/-- The labels that a code puts, as they are written. -/
def labelTexts (code : List Line) : List String := (labels code).map Label.text

namespace FileTree.Compiles

variable {tree : FileTree} {source : List (Located Token)} {parsed : Parsed} {lines : List Line}
  (h : tree.Compiles source parsed lines)
include h

theorem wellFormed : parsed.program.WellFormed := Program.ofTokens_wellFormed h.parses

theorem isWord {item : Item} (hmem : item ∈ parsed.program.items) : IsWord item.name :=
  h.reads.isWord (Program.ofTokens_name_mem h.parses hmem)

/-- The names in labels are words. -/
theorem worded {l : Label} (hl : l ∈ labels lines) : l.Worded := by
  have houter : l.isDotted = false → l ∈ parsed.program.outerLabels := fun hdot => by
    rw [← h.wellFormed.outer_lines h.lowers]
    exact mem_outer.mpr ⟨hl, hdot⟩
  cases l with
  | symbol name =>
      obtain hown | ⟨earlier, item, later, hitems, hitem⟩ := Program.mem_outerLabels.mp (houter rfl)
      · simp at hown
      · exact Item.name_of_symbol_mem_outerLabels hitem ▸ h.isWord (by simp [hitems])
  | exit name =>
      obtain hown | ⟨earlier, item, later, hitems, hitem⟩ := Program.mem_outerLabels.mp (houter rfl)
      · simp at hown
      · exact Item.name_of_exit_mem_outerLabels hitem ▸ h.isWord (by simp [hitems])
  | _ => trivial

/-- Labels are written with a dot in front if they have one. -/
theorem filter_labelTexts (holds : Bool → Bool) :
    (labelTexts lines).filter (holds <| beginsWithDot ·) =
      ((labels lines).filter (holds ·.isDotted)).map Label.text := by
  rw [labelTexts, List.filter_map]
  congr 1
  apply List.filter_congr
  intro l hl
  rw [Function.comp_apply, Label.beginsWithDot_text (h.worded hl)]

end FileTree.Compiles

end AccumulatorC
