import AccumulatorC.Proofs.Program.Compiling

/-!
# Collisions of labels

Functions and variables are labelled with their names as they are. The other labels without a dot
are words as well: `__start`, `__halt` and `heap_start`, the ends of functions, and the string
literals that variables start with. Nothing is put twice by itself, so the labels of a program differ
exactly if none of its functions and variables is named like one of those.
-/

namespace AccumulatorC

open Lowering

namespace Label

/-- The label of a string outside of functions is made of its number. -/
theorem text_string (n : Nat) : (string false n).text = s!"string_{n}" := by
  show "" ++ "string_" ++ toString n = "string_" ++ toString n
  rw [String.empty_append]

theorem text_stringEnd (n : Nat) : (stringEnd false n).text = s!"string_skip_{n}" := by
  show "" ++ "string_skip_" ++ toString n = "string_skip_" ++ toString n
  rw [String.empty_append]

end Label

/-- The names of the labels without a dot that a program puts besides those of its items. -/
inductive Program.Reserves (program : Program) : String → Prop
  | entry : Reserves program "__start"
  | halt : Reserves program "__halt"
  | heap : Reserves program "heap_start"
  | exit {function : Function} (h : .function function ∈ program.items) :
      Reserves program (function.symbol.name ++ "_exit")
  | string {earlier later : List Item} {declared : Declaration}
      (hitems : program.items = earlier ++ .global declared :: later)
      (hown : declared.symbol.storage ≠ .external) (hstring : declared.startsAsString = true) :
      Reserves program s!"string_{(earlier.map Item.strings).sum}"
  | stringEnd {earlier later : List Item} {declared : Declaration}
      (hitems : program.items = earlier ++ .global declared :: later)
      (hown : declared.symbol.storage ≠ .external) (hstring : declared.startsAsString = true) :
      Reserves program s!"string_skip_{(earlier.map Item.strings).sum}"

namespace Item

theorem string_mem_outerLabels {declared : Declaration} (hown : declared.symbol.storage ≠ .external)
    (hstring : declared.startsAsString = true) (n : Nat) :
    .string false n ∈ (Item.global declared).outerLabels n ∧
      .stringEnd false n ∈ (Item.global declared).outerLabels n := by
  simp [outerLabels, hown, hstring]

/-- A label of an item that is not its name. -/
theorem cases_of_mem_outerLabels {item : Item} {n : Nat} {l : Label}
    (h : l ∈ item.outerLabels n) (hsymbol : l.isSymbol = false) :
    (∃ function, item = .function function ∧ l = .exit function.symbol.name) ∨
      ∃ declared, item = .global declared ∧ declared.symbol.storage ≠ .external ∧
        declared.startsAsString = true ∧ (l = .string false n ∨ l = .stringEnd false n) := by
  cases item with
  | global declared =>
      refine .inr ⟨declared, rfl, ?_⟩
      simp only [outerLabels] at h
      split at h
      · cases h
      next hown =>
        rcases List.mem_append.mp h with hstring | hname
        · split at hstring
          next hyes => exact ⟨hown, hyes, by simpa using hstring⟩
          next => cases hstring
        · rw [List.mem_singleton.mp hname] at hsymbol
          cases hsymbol
  | function defined =>
      refine .inl ⟨defined, rfl, ?_⟩
      simp only [outerLabels, List.mem_cons, List.not_mem_nil, or_false] at h
      rcases h with rfl | rfl
      · cases hsymbol
      · rfl

end Item

/-- The reserved names are those of the labels without a dot that are not the name of an item. -/
theorem Program.reserves_iff {program : Program} {name : String} :
    program.Reserves name ↔ ∃ l ∈ program.outerLabels, l.isSymbol = false ∧ l.text = name := by
  constructor
  · intro h
    cases h with
    | entry => exact ⟨.entry, mem_outerLabels.mpr (.inl (by simp)), rfl, rfl⟩
    | halt => exact ⟨.halt, mem_outerLabels.mpr (.inl (by simp)), rfl, rfl⟩
    | heap => exact ⟨.heap, mem_outerLabels.mpr (.inl (by simp)), rfl, rfl⟩
    | @exit function h =>
        obtain ⟨earlier, later, hitems⟩ := List.append_of_mem h
        refine ⟨.exit function.symbol.name, mem_outerLabels.mpr (.inr ?_), rfl, rfl⟩
        exact ⟨earlier, _, later, hitems, by simp [Item.outerLabels]⟩
    | @string earlier later declared hitems hown hstring =>
        refine ⟨.string false (earlier.map Item.strings).sum, mem_outerLabels.mpr (.inr ?_), rfl,
          Label.text_string _⟩
        exact ⟨earlier, _, later, hitems, (Item.string_mem_outerLabels hown hstring _).1⟩
    | @stringEnd earlier later declared hitems hown hstring =>
        refine ⟨.stringEnd false (earlier.map Item.strings).sum, mem_outerLabels.mpr (.inr ?_), rfl,
          Label.text_stringEnd _⟩
        exact ⟨earlier, _, later, hitems, (Item.string_mem_outerLabels hown hstring _).2⟩
  · rintro ⟨l, hl, hsymbol, rfl⟩
    rcases mem_outerLabels.mp hl with hown | ⟨earlier, item, later, hitems, hitem⟩
    · simp only [List.mem_cons, List.not_mem_nil, or_false] at hown
      rcases hown with rfl | rfl | rfl
      · exact .entry
      · exact .halt
      · exact .heap
    · rcases Item.cases_of_mem_outerLabels hitem hsymbol with
        ⟨function, rfl, rfl⟩ | ⟨declared, rfl, hown, hstring, rfl | rfl⟩
      · exact .exit (by simp [hitems])
      · exact Label.text_string _ ▸ .string hitems hown hstring
      · exact Label.text_stringEnd _ ▸ .stringEnd hitems hown hstring

/-- Labels that differ are written differently, unless a name is written like another label. -/
theorem nodup_map_text_iff {list : List Label} (hnodup : list.Nodup) :
    (list.map Label.text).Nodup ↔
      ∀ name, .symbol name ∈ list → ∀ l ∈ list, l.isSymbol = false → l.text ≠ name := by
  rw [List.nodup_map_iff_inj_on hnodup]
  constructor
  · intro hinj name hname l hl hsymbol htext
    rw [hinj l hl _ hname htext] at hsymbol
    cases hsymbol
  · intro hfree l hl other hother htext
    cases hsymbol : l.isSymbol with
    | false =>
        cases hsymbol' : other.isSymbol with
        | false => exact Label.text_injective hsymbol hsymbol' htext
        | true =>
            obtain ⟨name, rfl⟩ := Label.eq_symbol hsymbol'
            exact absurd htext (hfree name hother l hl hsymbol)
    | true =>
        obtain ⟨name, rfl⟩ := Label.eq_symbol hsymbol
        cases hsymbol' : other.isSymbol with
        | false => exact absurd htext.symm (hfree name hl other hother hsymbol')
        | true =>
            obtain ⟨name', rfl⟩ := Label.eq_symbol hsymbol'
            exact congrArg Label.symbol htext

/-- The labels without a dot in the lines of a program are its three own, the names of its items,
the ends of its functions and those of the string literals that variables start with, each put once.
As they are written they differ exactly if no function or variable is named like one of the others. -/
theorem FileTree.outer_labels_distinct_iff {tree : FileTree} {source : List (Located Token)}
    {parsed : Parsed} {lines : List Line} (h : tree.Compiles source parsed lines) :
    (labelTexts lines).filter (!beginsWithDot ·) = parsed.program.outerLabels.map Label.text ∧
      (((labelTexts lines).filter (!beginsWithDot ·)).Nodup ↔
        ∀ item ∈ parsed.program.items, item.symbol.storage ≠ .external →
          ¬ parsed.program.Reserves item.name) := by
  have houter := h.wellFormed.outer_lines h.lowers
  have htexts : (labelTexts lines).filter (!beginsWithDot ·) =
      parsed.program.outerLabels.map Label.text := by
    rw [h.filter_labelTexts not, ← houter]
    rfl
  have hnodup : parsed.program.outerLabels.Nodup := by
    rw [← houter]
    exact (h.wellFormed.labels_nodup h.lowers).filter _
  refine ⟨htexts, ?_⟩
  rw [htexts, nodup_map_text_iff hnodup]
  simp only [h.wellFormed.symbol_mem_outerLabels, Program.reserves_iff]
  constructor
  · rintro hfree item hmem hown ⟨l, hl, hsymbol, htext⟩
    exact hfree _ ⟨item, hmem, hown, rfl⟩ l hl hsymbol htext
  · rintro hfree name ⟨item, hmem, hown, rfl⟩ l hl hsymbol htext
    exact hfree item hmem hown ⟨l, hl, hsymbol, htext⟩

/-! ## Two programs -/

/-- A text with a string literal that a variable starts with, and a variable of another name. -/
def greetingText : String := "char* string_1 = \"hi\"; char main() \x7b return *string_1; \x7d"

/-- Its labels differ, so no name in it is reserved. -/
theorem greeting_distinct : ∃ compiled source parsed,
    FileTree.bare.compileText .default greetingText = .ok compiled ∧
      FileTree.bare.Compiles source parsed compiled.assembly.lines ∧
      (labelTexts compiled.assembly.lines).filter (!beginsWithDot ·) =
        parsed.program.outerLabels.map Label.text ∧
      (((labelTexts compiled.assembly.lines).filter (!beginsWithDot ·)).Nodup ↔
        ∀ item ∈ parsed.program.items, item.symbol.storage ≠ .external →
          ¬ parsed.program.Reserves item.name) ∧
      ((labelTexts compiled.assembly.lines).filter (!beginsWithDot ·)).Nodup := by
  have hany : ((FileTree.bare.compileText .default greetingText).toOption.any fun compiled =>
      decide ((labelTexts compiled.assembly.lines).filter (!beginsWithDot ·)).Nodup) = true := by
    decide +kernel
  obtain ⟨compiled, hcompiled, hdistinct⟩ := exists_eq_ok_of_any hany
  obtain ⟨source, parsed, hcompiles⟩ := FileTree.compiles_of_compileText hcompiled
  obtain ⟨htexts, hiff⟩ := FileTree.outer_labels_distinct_iff hcompiles
  exact ⟨compiled, source, parsed, hcompiled, hcompiles, htexts, hiff, of_decide_eq_true hdistinct⟩

/-- A text with a variable that is named like the end of a function. -/
def collidingText : String := "char main_exit; char main() \x7b return 0; \x7d"

theorem colliding_not_distinct :
    ∃ compiled, FileTree.bare.compileText .default collidingText = .ok compiled ∧
      ¬ ((labelTexts compiled.assembly.lines).filter (!beginsWithDot ·)).Nodup := by
  have hany : ((FileTree.bare.compileText .default collidingText).toOption.any fun compiled =>
      decide (¬ ((labelTexts compiled.assembly.lines).filter (!beginsWithDot ·)).Nodup)) = true := by
    decide +kernel
  obtain ⟨compiled, hcompiled, htexts⟩ := exists_eq_ok_of_any hany
  exact ⟨compiled, hcompiled, of_decide_eq_true htexts⟩

end AccumulatorC
