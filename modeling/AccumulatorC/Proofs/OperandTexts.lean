import AccumulatorC.Proofs.LocalLabels

/-!
# How operands are written

A memory operand is written as a label, as a distance from the stack pointer or as a pair, with
nothing to tell the three apart but their words. Labels are the names of functions and variables as
they are, so a variable that is named like a register is written like that register, and one that is
named like the stack pointer has its second byte written like a place on the stack. There are no
other collisions.
-/

namespace AccumulatorC

open Lowering

/-- The operands of an instruction that are addresses. -/
def Instr.memoryOperands : Instr → List Address
  | .setAddress _ address | .load _ address | .store address _ => [address]
  | _ => []

/-- The operands of a line that are addresses. -/
def Line.memoryOperands : Line → List Address
  | .instr i => i.memoryOperands
  | .label _ | .data _ => []

/-- The addresses among the operands of a code. -/
def memoryOperands (code : List Line) : List Address := code.flatMap Line.memoryOperands

/-- The name of the stack pointer in operands. -/
def stackPointerName : String := "sp"

/-- What a label must not be called to be told from other operands. -/
def operandWords : List String := stackPointerName :: Reg.file.map Reg.text

/-! ## Two addresses -/

namespace Address

/-- An address whose label is a word. -/
def Worded : Address → Prop
  | label name _ => IsWord name
  | stack _ | indirect _ => True

/-- A label that is written like an operand of another kind. -/
inductive Clashes : Address → Address → Prop
  /-- It has the name of a register. -/
  | register (r : Reg) : Clashes (label r.text 0) (indirect r)
  /-- It has the name of the stack pointer, and a distance. -/
  | stackPointer {offset : Nat} (h : offset ≠ 0) :
      Clashes (label stackPointerName offset) (stack offset)

/-- An offset from a label follows a plus sign. -/
theorem toList_value_label (name : String) {offset : Nat} (h : offset ≠ 0) :
    (label name offset).value.toList = name.toList ++ '+' :: digits offset := by
  have hvalue : (label name offset).value = name ++ "+" ++ toString offset := by
    rw [value, if_neg h]
    rfl
  simp [hvalue, digits]

theorem toList_value_stack (offset : Nat) :
    (stack offset).value.toList = stackPointerName.toList ++ '+' :: digits offset := by
  have hvalue : (stack offset).value = "sp+" ++ toString offset := rfl
  simp [hvalue, digits, stackPointerName]

theorem plus_not_mem_digits (n : Nat) : '+' ∉ digits n := by
  intro hmem
  rw [digits_eq] at hmem
  have hdigit := Nat.isDigit_of_mem_toDigits (by decide) (by decide) hmem
  exact absurd hdigit (by decide)

end Address

/-- There is no plus sign in a word, so the one before the offset ends a name. -/
theorem IsWord.plus_not_mem {name : String} (h : IsWord name) : '+' ∉ name.toList := by
  obtain ⟨first, rest, hname, hfirst, hrest⟩ := h
  rw [hname, List.mem_cons]
  rintro (rfl | hmem)
  · exact absurd hfirst (by decide)
  · exact absurd (hrest '+' hmem) (by decide)

namespace Reg

theorem plus_not_mem_text (r : Reg) : '+' ∉ r.text.toList := by
  cases r <;> decide

theorem underscore_not_mem_text (r : Reg) : '_' ∉ r.text.toList := by
  cases r <;> decide

/-- Registers have different names. -/
theorem text_injective {r s : Reg} (h : r.text = s.text) : r = s := by
  cases r <;> cases s <;> first | rfl | exact absurd h (by decide)

theorem text_mem_operandWords (r : Reg) : r.text ∈ operandWords := by
  cases r <;> decide

end Reg

namespace Address

/-- What is written with a distance differs from what is written without. -/
theorem ne_of_plus {text other name : String} {offset : Nat}
    (h : text.toList = name.toList ++ '+' :: digits offset) (hother : '+' ∉ other.toList) :
    text ≠ other := by
  rintro rfl
  rw [h] at hother
  exact hother (by simp)

/-- What stands before and behind a plus sign is known from the text. -/
theorem eq_of_plus {text name other : String} {offset offset' : Nat}
    (h : text.toList = name.toList ++ '+' :: digits offset)
    (h' : text.toList = other.toList ++ '+' :: digits offset') : name = other ∧ offset = offset' := by
  obtain ⟨hname, hoffset⟩ := append_cons_inj_of_last (plus_not_mem_digits offset)
    (plus_not_mem_digits offset') (h.symm.trans h')
  exact ⟨String.toList_inj.mp hname, digits_injective hoffset⟩

theorem Clashes.value_eq {x y : Address} (h : x.Clashes y) : x.value = y.value := by
  cases h with
  | register r => rw [value, if_pos rfl, value]
  | @stackPointer offset hoffset =>
      rw [← String.toList_inj, toList_value_label _ hoffset, toList_value_stack]

/-- A label is written like another operand only if it clashes with it. -/
theorem eq_or_clashes_of_label {name : String} {offset : Nat} {y : Address} (hname : IsWord name)
    (hy : y.Worded) (h : (label name offset).value = y.value) :
    label name offset = y ∨ (label name offset).Clashes y := by
  by_cases hoffset : offset = 0
  · subst hoffset
    have hplain : name = y.value := by rw [← h, value, if_pos rfl]
    cases y with
    | label other distance =>
        by_cases hdistance : distance = 0
        · subst hdistance
          rw [value, if_pos rfl] at hplain
          exact .inl (hplain ▸ rfl)
        · exact absurd hplain.symm (ne_of_plus (toList_value_label _ hdistance) hname.plus_not_mem)
    | stack distance =>
        exact absurd hplain.symm (ne_of_plus (toList_value_stack distance) hname.plus_not_mem)
    | indirect r =>
        rw [value] at hplain
        exact .inr (hplain ▸ .register r)
  · have htext := toList_value_label name hoffset
    cases y with
    | label other distance =>
        by_cases hdistance : distance = 0
        · subst hdistance
          rw [h, value, if_pos rfl] at htext
          exact absurd rfl (ne_of_plus htext (IsWord.plus_not_mem hy))
        · rw [h] at htext
          obtain ⟨rfl, rfl⟩ := eq_of_plus htext (toList_value_label _ hdistance)
          exact .inl rfl
    | stack distance =>
        rw [h] at htext
        obtain ⟨rfl, rfl⟩ := eq_of_plus htext (toList_value_stack distance)
        exact .inr (.stackPointer hoffset)
    | indirect r =>
        rw [h] at htext
        exact absurd rfl (ne_of_plus htext r.plus_not_mem_text)

/-- Two addresses are written alike if they are the same, or if one is a label that clashes with the
other. -/
theorem value_eq_iff {x y : Address} (hx : x.Worded) (hy : y.Worded) :
    x.value = y.value ↔ x = y ∨ x.Clashes y ∨ y.Clashes x := by
  constructor
  · intro h
    cases x with
    | label name offset => exact (eq_or_clashes_of_label hx hy h).imp_right .inl
    | stack offset =>
        cases y with
        | label name distance =>
            exact (eq_or_clashes_of_label hy hx h.symm).imp Eq.symm .inr
        | stack distance =>
            have htext := toList_value_stack offset
            rw [h] at htext
            exact .inl (congrArg stack (eq_of_plus htext (toList_value_stack distance)).2)
        | indirect r => exact absurd h (ne_of_plus (toList_value_stack offset) r.plus_not_mem_text)
    | indirect r =>
        cases y with
        | label name distance =>
            exact (eq_or_clashes_of_label hy hx h.symm).imp Eq.symm .inr
        | stack distance =>
            exact absurd h.symm (ne_of_plus (toList_value_stack distance) r.plus_not_mem_text)
        | indirect s => exact .inl (congrArg indirect (Reg.text_injective h))
  · rintro (rfl | hclash | hclash)
    · rfl
    · exact hclash.value_eq
    · exact hclash.value_eq.symm

/-- The brackets of a byte in memory tell nothing apart. -/
theorem text_eq_iff {x y : Address} : x.text = y.text ↔ x.value = y.value := by
  simp [text, ← String.toList_inj]

/-- A label that clashes has a word of operands for its name. -/
theorem Clashes.name_mem {x y : Address} (h : x.Clashes y) :
    ∃ name offset, x = label name offset ∧ name ∈ operandWords := by
  cases h with
  | register r => exact ⟨_, _, rfl, r.text_mem_operandWords⟩
  | stackPointer => exact ⟨_, _, rfl, List.mem_cons_self⟩

end Address

/-! ## Compiled programs -/

/-- The label of an operand is among those that its line refers to. -/
theorem Line.symbol_mem_references {line : Line} {name : String} {offset : Nat}
    (h : .label name offset ∈ line.memoryOperands) : .symbol name ∈ line.references := by
  cases line with
  | instr i =>
      cases i with
      | setAddress | load | store =>
          rw [memoryOperands, Instr.memoryOperands, List.mem_singleton] at h
          rw [references, Instr.references, ← h]
          exact List.mem_singleton.mpr rfl
      | _ => cases h
  | label => cases h
  | data => cases h

namespace FileTree.Compiles

variable {tree : FileTree} {source : List (Located Token)} {parsed : Parsed} {lines : List Line}
  (h : tree.Compiles source parsed lines)
include h

/-- The names that lines refer to stand in the source. -/
theorem identifier_mem {line : Line} (hmem : line ∈ lines) {name : String}
    (hname : .symbol name ∈ line.references) : .identifier name ∈ source.map (·.value) := by
  rcases h.references_found.2 line hmem _ hname with hdotted | hput | ⟨other, hsame, hexternal⟩
  · cases hdotted
  · have houter : .symbol name ∈ parsed.program.outerLabels := by
      rw [← h.wellFormed.outer_lines h.lowers]
      exact mem_outer.mpr ⟨hput, rfl⟩
    obtain ⟨item, hitem, -, rfl⟩ := h.wellFormed.symbol_mem_outerLabels.mp houter
    exact Program.ofTokens_name_mem h.parses hitem
  · cases hsame
    exact hexternal.mem

/-- The label of an operand stands in the source. -/
theorem operand_identifier_mem {name : String} {offset : Nat}
    (hmem : .label name offset ∈ memoryOperands lines) :
    .identifier name ∈ source.map (·.value) := by
  obtain ⟨line, hline, hoperand⟩ := List.mem_flatMap.mp hmem
  exact h.identifier_mem hline (Line.symbol_mem_references hoperand)

theorem operand_worded {x : Address} (hmem : x ∈ memoryOperands lines) : x.Worded := by
  cases x with
  | label name offset => exact h.reads.isWord (h.operand_identifier_mem hmem)
  | stack => trivial
  | indirect => trivial

end FileTree.Compiles

/-- Two memory operands of a compiled program are written alike, with or without brackets, exactly if
they are the same or one is a label that clashes with the other: it has the name of the register or of
the stack pointer through which the other one is found. If the source names nothing like a register
or the stack pointer, different operands are written differently, and no label that a line refers to
is written like a register. -/
theorem FileTree.operand_texts_eq_iff {tree : FileTree} {source : List (Located Token)}
    {parsed : Parsed} {lines : List Line} (h : tree.Compiles source parsed lines) :
    (∀ x ∈ memoryOperands lines, ∀ y ∈ memoryOperands lines,
      (x.text = y.text ↔ x.value = y.value) ∧
        (x.value = y.value ↔ x = y ∨ x.Clashes y ∨ y.Clashes x)) ∧
    ((∀ name ∈ operandWords, .identifier name ∉ source.map (·.value)) →
      (∀ x ∈ memoryOperands lines, ∀ y ∈ memoryOperands lines, x.value = y.value → x = y) ∧
        ∀ line ∈ lines, ∀ l ∈ line.references, ∀ r : Reg, l.text ≠ r.text) := by
  have hiff : ∀ x ∈ memoryOperands lines, ∀ y ∈ memoryOperands lines,
      (x.value = y.value ↔ x = y ∨ x.Clashes y ∨ y.Clashes x) := fun x hx y hy =>
    Address.value_eq_iff (h.operand_worded hx) (h.operand_worded hy)
  refine ⟨fun x hx y hy => ⟨Address.text_eq_iff, hiff x hx y hy⟩, fun hfree => ⟨?_, ?_⟩⟩
  · have hclear : ∀ x ∈ memoryOperands lines, ∀ y, ¬ x.Clashes y := by
      rintro x hx y hclash
      obtain ⟨name, offset, rfl, hword⟩ := hclash.name_mem
      exact hfree name hword (h.operand_identifier_mem hx)
    intro x hx y hy hvalue
    rcases (hiff x hx y hy).mp hvalue with hsame | hclash | hclash
    · exact hsame
    · exact absurd hclash (hclear x hx y)
    · exact absurd hclash (hclear y hy x)
  · intro line hmem l hl r htext
    cases hsymbol : l.isSymbol with
    | true =>
        obtain ⟨name, rfl⟩ := Label.eq_symbol hsymbol
        have hname : name = r.text := htext
        exact hfree name (hname ▸ r.text_mem_operandWords) (h.identifier_mem hmem hl)
    | false =>
        have hunderscore : '_' ∈ l.text.toList := by
          rw [Label.toList_text hsymbol]
          simp
        rw [htext] at hunderscore
        exact r.underscore_not_mem_text hunderscore

/-! ## Two programs -/

/-- A text with a local variable, a global one and a pointer. -/
def copyingText : String := "int from; int main() \x7b int* to; *to = from; return *to; \x7d"

/-- Its operands are written differently. -/
theorem copying_operands_told_apart : ∃ compiled source parsed,
    FileTree.bare.compileText .default copyingText = .ok compiled ∧
      FileTree.bare.Compiles source parsed compiled.assembly.lines ∧
      (∀ x ∈ memoryOperands compiled.assembly.lines, ∀ y ∈ memoryOperands compiled.assembly.lines,
        (x.text = y.text ↔ x.value = y.value) ∧
          (x.value = y.value ↔ x = y ∨ x.Clashes y ∨ y.Clashes x)) ∧
      ((∀ name ∈ operandWords, .identifier name ∉ source.map (·.value)) →
        (∀ x ∈ memoryOperands compiled.assembly.lines, ∀ y ∈ memoryOperands compiled.assembly.lines,
          x.value = y.value → x = y) ∧
          ∀ line ∈ compiled.assembly.lines, ∀ l ∈ line.references, ∀ r : Reg, l.text ≠ r.text) ∧
      ∀ x ∈ memoryOperands compiled.assembly.lines, ∀ y ∈ memoryOperands compiled.assembly.lines,
        x.value = y.value → x = y := by
  have hany : ((FileTree.bare.compileText .default copyingText).toOption.any fun compiled =>
      (memoryOperands compiled.assembly.lines).all fun x =>
        (memoryOperands compiled.assembly.lines).all fun y =>
          decide (x.value = y.value → x = y)) = true := by
    decide +kernel
  obtain ⟨compiled, hcompiled, happart⟩ := exists_eq_ok_of_any hany
  obtain ⟨source, parsed, hcompiles⟩ := FileTree.compiles_of_compileText hcompiled
  obtain ⟨hiff, hfree⟩ := FileTree.operand_texts_eq_iff hcompiles
  refine ⟨compiled, source, parsed, hcompiled, hcompiles, hiff, hfree, fun x hx y hy => ?_⟩
  exact of_decide_eq_true (List.all_eq_true.mp (List.all_eq_true.mp happart x hx) y hy)

/-- A text in which a variable has the name of the pair that a pointer is read into. -/
def shadowingText : String := "char bc; char main() \x7b char* p; return *p + bc; \x7d"

/-- The variable and what the pointer points to are written alike. -/
theorem shadowing_operands_alike :
    ∃ compiled, FileTree.bare.compileText .default shadowingText = .ok compiled ∧
      .label "bc" 0 ∈ memoryOperands compiled.assembly.lines ∧
      .indirect .bc ∈ memoryOperands compiled.assembly.lines ∧
      Address.text (.label "bc" 0) = Address.text (.indirect .bc) := by
  have hany : ((FileTree.bare.compileText .default shadowingText).toOption.any fun compiled =>
      decide (.label "bc" 0 ∈ memoryOperands compiled.assembly.lines ∧
        .indirect .bc ∈ memoryOperands compiled.assembly.lines)) = true := by decide +kernel
  obtain ⟨compiled, hcompiled, hmem⟩ := exists_eq_ok_of_any hany
  obtain ⟨hlabel, hindirect⟩ := of_decide_eq_true hmem
  exact ⟨compiled, hcompiled, hlabel, hindirect, by decide⟩

end AccumulatorC
