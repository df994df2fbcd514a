import AccumulatorC.Proofs.Program.Compiling
import AccumulatorC.Proofs.Program.Parser.Acceptance
import AccumulatorC.Proofs.Program.Parser.Soundness
import AccumulatorC.Proofs.Program.Printed

/-!
# Printing and reading programs

The tokens that are written for a program are read as that program again: with the same items, types,
constants, symbols, scopes and frames, and with the same warnings in the same order. Only places are
not written.
-/

namespace AccumulatorC

/-- What is written for a program that was read is read as that program, up to places. -/
theorem Program.ofTokens_print {tokens printed : List (Located Token)} {parsed : Parsed}
    (h : Program.ofTokens tokens = .ok parsed)
    (hprinted : printed.map (·.value) = parsed.program.print) :
    ∃ again, Program.ofTokens printed = .ok again ∧ again.unplaced = parsed.unplaced := by
  -- The source that was read need not be the one that is written, but both elaborate alike.
  obtain ⟨entries, hspelling, hitems, hmain⟩ := ofTokens_source h
  have hgrows := Scopes.Grows.refl parsed.program.unplaced.scopes globalScope
  have hwritten : printed.map (·.value) = Entry.writeAll parsed.program.unplaced.source :=
    hprinted.trans parsed.program.unplaced_print.symm
  obtain ⟨again, hagain, hprogram, hwarnings⟩ :=
    ofTokens_of_source (hwritten ▸ hspelling.printed hitems hgrows) (hitems.printed hgrows) hmain
  refine ⟨again, hagain, ?_⟩
  have hplaces : ∀ warnings : List (Located Conversion),
      warnings.map Located.unplaced = placeless (warnings.map (·.value)) := fun warnings => by
    rw [placeless, List.map_map]
    rfl
  rw [Parsed.unplaced, Parsed.unplaced, hprogram, hplaces, hplaces, hwarnings]

/-- A text with steps, a conversion, and an `else` that belongs to the second of two conditions. -/
def tallyText : String :=
  "char n = 3; int main(int* at) \x7b while (n--) if (n) if (*at < 9) ++*at; else n = *at; return n; \x7d"

/-- The tokens that are written for its program. -/
def tallyWritten : List Token :=
  [.keyword .charType, .identifier "n", .mark .assign, .integer 3, .mark .semicolon,
    .keyword .intType, .identifier "main", .mark .openParen, .keyword .intType, .mark .star,
    .identifier "at", .mark .closeParen, .mark .openBrace, .keyword .whileLoop, .mark .openParen,
    .identifier "n", .mark .decrement, .mark .closeParen, .keyword .ifThen, .mark .openParen,
    .identifier "n", .mark .closeParen, .keyword .ifThen, .mark .openParen, .mark .openParen,
    .mark .star, .identifier "at", .mark .closeParen, .mark .less, .integer 9, .mark .closeParen,
    .mark .increment, .mark .openParen, .mark .star, .identifier "at", .mark .closeParen,
    .mark .semicolon, .keyword .elseThen, .identifier "n", .mark .assign, .mark .openParen,
    .mark .star, .identifier "at", .mark .closeParen, .mark .semicolon, .keyword .returning,
    .identifier "n", .mark .semicolon, .mark .closeBrace]

/-- The tokens of the text. -/
def tallyTokens : Except (List (Located LexError)) (List (Located Token)) :=
  FileTree.bare.textTokens "<input>" tallyText.toUTF8 ⟨"."⟩

theorem tally_print : (tallyTokens.toOption.any fun tokens =>
    (Program.ofTokens tokens).toOption.any fun parsed =>
      decide (parsed.program.print = tallyWritten)) = true := by
  decide +kernel

theorem tally_printed : ∃ tokens parsed again, tallyTokens = .ok tokens ∧
    Program.ofTokens tokens = .ok parsed ∧ parsed.program.print = tallyWritten ∧
      Program.ofTokens (unplacedTokens tallyWritten) = .ok again ∧
      again.unplaced = parsed.unplaced := by
  obtain ⟨tokens, htokens, hany⟩ := exists_eq_ok_of_any tally_print
  obtain ⟨parsed, hparsed, hany⟩ := exists_eq_ok_of_any hany
  have hwritten := of_decide_eq_true hany
  have hvalues : (unplacedTokens tallyWritten).map (·.value) = parsed.program.print := by
    rw [hwritten, unplacedTokens, List.map_map]
    exact List.map_id _
  obtain ⟨again, hagain, hsame⟩ := Program.ofTokens_print hparsed hvalues
  exact ⟨tokens, parsed, again, htokens, hparsed, hwritten, hagain, hsame⟩

end AccumulatorC
