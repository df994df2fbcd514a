import AccumulatorC.Proofs.GlobalData
import AccumulatorC.Proofs.Lowering.Narrowing
import AccumulatorC.Proofs.Program.Compiling
import AccumulatorC.Proofs.Program.Constants
import AccumulatorC.Proofs.Program.Parser.Warnings

/-!
# Warnings of values that are cut

No value of two bytes is cut to one without a warning at its place that says so. This goes for
values in registers, when the program runs, and for those that global variables start with. A
program that compiles without warnings loses nothing in a conversion.
-/

namespace AccumulatorC

open Lowering

/-- Data that a value is written with as a whole: a string by its address, a number in a byte or a
word. -/
inductive Data.HoldsAll (value : Expr) : Data → Prop
  | address {label : Label} (h : value.isString = true) : HoldsAll value (.address label)
  | byte {n : UInt16} (h : value.fold = some n) : HoldsAll value (.byte n.toNat)
  | word {n : UInt16} (h : value.fold = some n) : HoldsAll value (.word n.toNat)

/-- The lines of a program cut values of two bytes to one only where that is allowed. -/
structure Program.CutsWhere (program : Program) (allowed : Location → Bool) (lines : List Line) :
    Prop where
  lowers : program.linesWith (fun _ => coerce) = .ok lines
  /-- The lines are the same whatever lowering does in the place of all other cuts. -/
  code : ∀ otherwise, program.linesWith (coerceWhere allowed otherwise) = .ok lines
  /-- The data of a variable that starts with a value holds all of it. -/
  data : ∀ declared value, .global declared ∈ program.items →
    declared.symbol.storage ≠ .external → declared.initial = some value →
    ∃ before data after, lines = before ++ (declared.head ++ .data data :: after) ∧
      .label (.symbol declared.symbol.name) ∉ before ∧
      .label (.symbol declared.symbol.name) ∉ after ∧
      (data.HoldsAll value ∨ allowed value.location = true)

/-- A number that is not cut is written as a whole. -/
theorem Declaration.ofNumber_holdsAll {declared : Declaration} {value : Expr} {n : UInt16}
    (hnumeric : value.Numeric) (hn : value.fold = some n)
    (hsize : declared.symbol.type.size = 1 → value.type.size = 1) :
    (declared.ofNumber n).HoldsAll value := by
  unfold ofNumber
  split
  next hone =>
    have hcut := hnumeric.cut_fold hn
    rw [← hnumeric.cutToSize_eq, hsize hone] at hcut
    have hbyte : n &&& 0xff = n := hcut
    rw [hbyte]
    exact .byte hn
  next => exact .word hn

/-- A program in which everything that is stored is cut only where that is allowed has lines that
cut values only there. -/
theorem Program.WellFormed.cutsWhere {program : Program} (h : program.WellFormed)
    {allowed : Location → Bool} {lines : List Line} (hlines : program.lines = .ok lines)
    (hcuts : ∀ stored ∈ program.storings, stored.CutsWhere allowed) :
    program.CutsWhere allowed lines := by
  refine ⟨program.linesWith_coerce.trans hlines,
    fun otherwise => (h.linesWith_eq hcuts).trans hlines, ?_⟩
  intro declared value hmem hown hvalue
  obtain ⟨hwf, haccepts, hinitializer⟩ := h.globals declared value hmem hvalue
  have hstored : Storing.CutsWhere allowed ⟨declared.symbol.type, value.type, value.location⟩ := by
    refine hcuts _ (List.mem_flatMap.mpr ⟨_, hmem, ?_⟩)
    simp [Item.storings, Declaration.stores, hvalue]
  have hdata : ∀ state, Ensures declared.data state fun data _ _ =>
      data.HoldsAll value ∨ allowed value.location = true := by
    intro state
    refine (Declaration.data_of_initial state hvalue).mono ?_
    rintro data _ _ (⟨label, hstring, rfl⟩ | ⟨n, hn, rfl⟩)
    · exact .inl (.address hstring)
    · have hconstant : value.note.constant = true :=
        (Bool.and_eq_true_iff.mp hinitializer).1
      have hnumeric : value.Numeric := by
        refine hwf.numeric hconstant ?_
        cases value with
        | string => cases hn
        | _ => rfl
      rcases hnumeric.size_eq with hone | htwo
      · exact .inl (Declaration.ofNumber_holdsAll hnumeric hn fun _ => hone)
      · by_cases htarget : declared.symbol.type.size = 1
        · exact .inr (hstored htwo htarget)
        · exact .inl (Declaration.ofNumber_holdsAll hnumeric hn fun h => absurd h htarget)
  obtain ⟨before, data, after, hparts, hbefore, hafter, -, hholds⟩ :=
    h.global_line hlines hmem hown hdata
  exact ⟨before, data, after, hparts, hbefore, hafter, hholds⟩

/-- The lines of a compiled program cut values of two bytes to one only where a warning says so. If
there are no warnings they cut none. -/
theorem compileTokens_cuts_warned {options : Options}
    {tokens : Except (List (Located LexError)) (List (Located Token))} {compiled : Compiled}
    (h : compileTokens options tokens = .ok compiled) :
    ∃ source parsed, tokens = .ok source ∧ Program.ofTokens source = .ok parsed ∧
      parsed.program.CutsWhere (tellOfNarrowing compiled.warnings) compiled.assembly.lines ∧
      (compiled.warnings = [] →
        parsed.program.CutsWhere (fun _ => false) compiled.assembly.lines) := by
  obtain ⟨source, parsed, rfl, hparsed, hlines⟩ := compileTokens_eq_ok h
  obtain ⟨read, hread, hwarnings⟩ := compileTokens_warnings h
  cases hparsed.symm.trans hread
  have hcuts : parsed.program.CutsWhere (tellOfNarrowing compiled.warnings)
      compiled.assembly.lines := by
    have hwf := Program.ofTokens_wellFormed hparsed
    refine hwf.cutsWhere hlines fun stored hmem => ?_
    rw [hwarnings]
    exact Storing.cutsWhere_of_warnings (hwf.accepts stored hmem)
      (Program.ofTokens_notes hparsed stored hmem)
  refine ⟨source, parsed, rfl, hparsed, hcuts, fun hnone => ?_⟩
  rw [hnone] at hcuts
  exact hcuts

/-! ## A program that cuts values -/

/-- A text with two values of two bytes that are stored in one byte: the initial value of a variable
and an argument. -/
def halvingText : String :=
  "char half(char c) { return c; }\nchar g = 300;\n" ++
    "char main() { int w = 513; return half(w) + g; }\n"

/-- What is compiled from it. -/
def halving : Compiled :=
  (FileTree.bare.compileText .default halvingText).toOption.getD ⟨⟨none, 0, []⟩, []⟩

/-- Both values are warned about, and nowhere else is a value cut. -/
theorem halving_cuts_warned :
    FileTree.bare.compileText .default halvingText = .ok halving ∧
    halving.warnings.map (·.value) = [.narrowing .int .char, .narrowing .int .char] ∧
    ∃ source parsed, FileTree.bare.textTokens "<input>" halvingText.toUTF8 ⟨"."⟩ = .ok source ∧
      Program.ofTokens source = .ok parsed ∧
      parsed.program.CutsWhere (tellOfNarrowing halving.warnings) halving.assembly.lines ∧
      (halving.warnings = [] →
        parsed.program.CutsWhere (fun _ => false) halving.assembly.lines) := by
  have hcompiled : FileTree.bare.compileText .default halvingText = .ok halving :=
    eq_ok_of_isOk (by decide +kernel) _
  exact ⟨hcompiled, by decide +kernel, compileTokens_cuts_warned (compileTokens_of_sources hcompiled)⟩

/-- Where it would cut them, something else can be done: here lowering fails. -/
example :
    ((parseTokens (FileTree.bare.textTokens "<input>" halvingText.toUTF8 ⟨"."⟩)).toOption.map
      fun parsed => (parsed.program.linesWith
        (coerceWhere (fun _ => false) fun _ => fail .voidValue)).isOk) = some false := by
  decide +kernel

end AccumulatorC
