import AccumulatorC.Compile
import AccumulatorC.Proofs.Lowering.Unplaced
import AccumulatorC.Proofs.Program.Compiling
import AccumulatorC.Proofs.Program.Parser.Unplaced

/-!
# Places matter for diagnoses alone

Where the tokens of a program stand, and in which sources, changes nothing but the places in
diagnoses: the same tokens elsewhere are compiled to the same text with the same warnings, or are
refused by the same phase for the same cause.
-/

namespace AccumulatorC

/-- The compilations of two sequences of tokens end alike. -/
inductive EndAlike (options : Options) (tokens others : List (Located Token)) : Prop
  /-- Both are compiled, to the same text and with the same warnings. -/
  | compiled {first second : Compiled} (hfirst : compileTokens options (.ok tokens) = .ok first)
      (hsecond : compileTokens options (.ok others) = .ok second)
      (htext : first.assembly.text = second.assembly.text)
      (hwarnings : first.warnings.map (·.value) = second.warnings.map (·.value))
  /-- Both are read, and neither is lowered, for the same cause. -/
  | notLowered {first second : Parsed} {stop other : Stop (Located LowerError)}
      (hfirst : Program.ofTokens tokens = .ok first)
      (hsecond : Program.ofTokens others = .ok second)
      (hstop : first.program.lines = .error stop) (hother : second.program.lines = .error other)
      (hcause : stop.map (·.value) = other.map (·.value))
  /-- Neither is read, for the same cause. -/
  | notRead {stop other : Stop (Located ParseError)}
      (hstop : Program.ofTokens tokens = .error stop)
      (hother : Program.ofTokens others = .error other)
      (hcause : stop.map (·.value.unplaced) = other.map (·.value.unplaced))

/-- Without places, what has the same values is the same. -/
theorem map_unplaced_eq_iff {α : Type} {first second : List (Located α)} :
    first.map Located.unplaced = second.map Located.unplaced ↔
      first.map (·.value) = second.map (·.value) := by
  constructor
  · intro h
    have hvalues := congrArg (List.map Located.value) h
    rwa [List.map_map, List.map_map] at hvalues
  · intro h
    have hplaced := congrArg (List.map (⟨·, nowhere⟩ : α → Located α)) h
    rwa [List.map_map, List.map_map] at hplaced

/-- Programs that are the same without places have the same lines, or are refused for the same
cause. -/
theorem Program.lines_of_unplaced_eq {first second : Program} (h : first.unplaced = second.unplaced) :
    first.lines.mapError (Stop.map (·.value)) = second.lines.mapError (Stop.map (·.value)) := by
  rw [← first.lines_unplaced, h, second.lines_unplaced]

/-- Programs that are read with the same warnings, and are the same without places, end alike. -/
theorem endAlike_of_read (options : Options) {tokens others : List (Located Token)}
    {first second : Parsed} (hfirst : Program.ofTokens tokens = .ok first)
    (hsecond : Program.ofTokens others = .ok second)
    (hprogram : first.program.unplaced = second.program.unplaced)
    (hwarnings : first.warnings.map (·.value) = second.warnings.map (·.value)) :
    EndAlike options tokens others := by
  have hlines := Program.lines_of_unplaced_eq hprogram
  cases hlower : first.program.lines with
  | error stop =>
      cases hlower' : second.program.lines with
      | ok lines => simp [hlower, hlower', Except.mapError] at hlines
      | error other =>
          simp only [hlower, hlower', Except.mapError, Except.error.injEq] at hlines
          exact .notLowered hfirst hsecond hlower hlower' hlines
  | ok lines =>
      cases hlower' : second.program.lines with
      | error other => simp [hlower, hlower', Except.mapError] at hlines
      | ok lines' =>
          simp only [hlower, hlower', Except.mapError, Except.ok.injEq] at hlines
          subst hlines
          have hcompiled : compileTokens options (.ok tokens) =
              .ok ⟨⟨options.preface, options.origin, lines⟩, first.warnings⟩ := by
            simp only [compileTokens, parseTokens, hfirst, hlower]
          have hcompiled' : compileTokens options (.ok others) =
              .ok ⟨⟨options.preface, options.origin, lines⟩, second.warnings⟩ := by
            simp only [compileTokens, parseTokens, hsecond, hlower']
          exact .compiled hcompiled hcompiled' rfl hwarnings

/-- The same tokens at other places, whatever sources they come from, are compiled to the same text
with the same warnings, or are refused by the same phase for the same cause. -/
theorem compileTokens_alike (options : Options) {tokens others : List (Located Token)}
    (h : tokens.map (·.value) = others.map (·.value)) : EndAlike options tokens others := by
  have hfirst := Program.ofTokens_unplaced tokens
  rw [map_unplaced_eq_iff.mpr h, Program.ofTokens_unplaced] at hfirst
  cases hread : Program.ofTokens tokens with
  | error stop =>
      cases hother : Program.ofTokens others with
      | ok second => simp only [hread, hother, reduceCtorEq] at hfirst
      | error other =>
          simp only [hread, hother, Except.error.injEq] at hfirst
          refine .notRead hread hother ?_
          cases stop <;> cases other <;> simp_all [Stop.map, ParseError.located]
  | ok first =>
      cases hother : Program.ofTokens others with
      | error other => simp only [hread, hother, reduceCtorEq] at hfirst
      | ok second =>
          simp only [hread, hother, Except.ok.injEq] at hfirst
          apply endAlike_of_read options hread hother
          · exact (congrArg Parsed.program hfirst).symm
          · exact map_unplaced_eq_iff.mp (congrArg Parsed.warnings hfirst).symm

/-- A program whose body is in a file of its own. -/
def splitText : String := "char main()\n#include \"body.h\"\n"

/-- The tree with that file. -/
def splitTree : FileTree := ⟨[], [], [(["body.h"], "\x7b\n\treturn 3;\n\x7d\n".toUTF8)]⟩

/-- The same program on one line, with a comment and another spelling of its number. -/
def wholeText : String := "char main() /* whole */ \x7b return 0x3; \x7d"

theorem split_compiled_alike : ∃ tokens others,
    splitTree.textTokens "<input>" splitText.toUTF8 ⟨"."⟩ = .ok tokens ∧
      FileTree.bare.textTokens "<input>" wholeText.toUTF8 ⟨"."⟩ = .ok others ∧
      tokens.map (·.location.start) ≠ others.map (·.location.start) ∧
      tokens.map (·.value) = others.map (·.value) ∧ EndAlike .default tokens others := by
  have hany : ((splitTree.textTokens "<input>" splitText.toUTF8 ⟨"."⟩).toOption.any fun tokens =>
      (FileTree.bare.textTokens "<input>" wholeText.toUTF8 ⟨"."⟩).toOption.any fun others =>
        decide (tokens.map (·.location.start) ≠ others.map (·.location.start) ∧
          tokens.map (·.value) = others.map (·.value))) = true := by
    decide +kernel
  obtain ⟨tokens, htokens, hany⟩ := exists_eq_ok_of_any hany
  obtain ⟨others, hothers, hboth⟩ := exists_eq_ok_of_any hany
  obtain ⟨hplaces, hvalues⟩ := of_decide_eq_true hboth
  exact ⟨tokens, others, htokens, hothers, hplaces, hvalues, compileTokens_alike .default hvalues⟩

end AccumulatorC
