import AccumulatorC.Proofs.Program.Parser.Ending

/-!
# Parsing makes progress and ends

Without a bound on the tokens the rules of the language end for every list of tokens, with what they
give under such a bound: their calls nest no deeper than some times the number of tokens. Each rule
that stands for a construct takes a token or more and leaves the others as they are, and a program is
read only when no token is left.
-/

namespace AccumulatorC

open AccumulatorC.Parser (Proceeds)

/-- The state in which the reading of a program begins. -/
def ParseState.begin (tokens : List (Located Token)) : ParseState where
  tokens
  bound := tokens.length
  last := tokens.head?.elim (Location.startOf "<input>") (·.location)
  scopes := .initial
  scope := globalScope
  result := none
  warnings := []

/-- Reads tokens as a program, with calls that nest no deeper than given. -/
def Descent.ofTokens (depth : Nat) (tokens : List (Located Token)) :
    Option (Except (Stop (Located ParseError)) Parsed) :=
  ((Descent.program depth).run (.begin tokens)).run.map fun
    | .ok (list, state) => .ok ⟨⟨list, state.scopes⟩, state.warnings⟩
    | .error stop => .error stop

/-- A rule reads a construct: from every state it ends with what a parser gives, at any depth that is
enough for the tokens to come, and a success of the parser has taken a token or more from the front. -/
structure Descent.Reads {α : Type} (most rank : Nat) (rule : Nat → Descent α) (parser : Parser α) :
    Prop where
  ends : ∀ (state : ParseState) (depth : Nat), state.tokens.length ≤ most →
    state.tokens.length ≤ state.bound → 16 * state.tokens.length + rank < depth →
      rule depth state = some (parser state)
  advances : ∀ state value after, parser state = .ok (value, after) →
    ∃ taken, taken ≠ [] ∧ state.tokens = taken ++ after.tokens

/-- A rule that ends within its depth reads what its parser reads, or stops where it does. -/
theorem Descent.EndsUpTo.reads {α : Type} {most rank : Nat} {rule : Nat → Descent α}
    {parser : Parser α} (h : EndsUpTo most rank rule parser) (hproceeds : Proceeds 1 parser) :
    Reads most rank rule parser where
  ends := fun state depth hmost hbound hdepth =>
    h state.tokens.length depth hmost hdepth state (Nat.le_refl _) hbound
  advances := by
    intro state value after hrun
    obtain ⟨taken, htaken, htokens⟩ := (hproceeds state value after hrun).tokens
    exact ⟨taken, List.ne_nil_of_length_pos htaken, htokens⟩

namespace Program

/-- What reading a program gives, from what its parser does. -/
theorem ofTokens_begin (tokens : List (Located Token)) :
    Program.ofTokens tokens =
      match Parser.program (.begin tokens) with
      | .ok (list, state) => .ok ⟨⟨list, state.scopes⟩, state.warnings⟩
      | .error stop => .error stop := rfl

theorem descent_ofTokens {tokens : List (Located Token)} {depth : Nat}
    (hdepth : 16 * tokens.length < depth) :
    Descent.ofTokens depth tokens = some (Program.ofTokens tokens) := by
  have hends : ((Descent.program depth).run (.begin tokens)).run =
      some (Parser.program (.begin tokens)) :=
    Descent.EndsWithin.program hdepth (.begin tokens) (Nat.le_refl _) (Nat.le_refl _)
  rw [Descent.ofTokens, hends, ofTokens_begin]
  rfl

/-- A program is read only when no token is left. -/
theorem no_token_left {tokens : List (Located Token)} {parsed : Parsed}
    (h : Program.ofTokens tokens = .ok parsed) :
    ∃ after, Parser.program (.begin tokens) = .ok (parsed.program.items, after) ∧
      after.tokens = [] := by
  rw [ofTokens_begin] at h
  cases hrun : Parser.program (.begin tokens) with
  | error stop =>
      rw [hrun] at h
      cases h
  | ok done =>
      rw [hrun] at h
      cases h
      exact ⟨done.2, rfl, Proceeds.ensures_program (Nat.le_refl tokens.length) _ _ hrun⟩

end Program

/-- Reading a program ends for every list of tokens, at any depth above sixteen times their number,
and with all of them taken when it succeeds. On the way each rule of the language ends as well, and
takes a token or more when it succeeds: types, declarations, functions, blocks, statements, and
expressions on each of their levels. -/
theorem Program.reading_advances (tokens : List (Located Token)) :
    (∀ depth, 16 * tokens.length < depth →
      Descent.ofTokens depth tokens = some (Program.ofTokens tokens)) ∧
    (∀ parsed, Program.ofTokens tokens = .ok parsed →
      ∃ after, Parser.program (.begin tokens) = .ok (parsed.program.items, after) ∧
        after.tokens = []) ∧
    ∀ most,
      Descent.Reads most 0 Descent.type Parser.type ∧
      Descent.Reads most 0 Descent.declaration Parser.declaration ∧
      Descent.Reads most 0 Descent.function Parser.function ∧
      Descent.Reads most 0 Descent.block (Parser.block Parser.statement) ∧
      Descent.Reads most 11 Descent.statement Parser.statement ∧
      Descent.Reads most 10 Descent.expression Parser.expression ∧
      (∀ count ≤ 6, Descent.Reads (most + 1) (count + 3)
        (Descent.level · (operatorLevels.take count).reverse)
        ((operatorLevels.take count).foldl Parser.operatorLevel
          (Parser.leading (Parser.expressionWithin most) (most + 1)))) ∧
      Descent.Reads (most + 1) 2 Descent.leading
        (Parser.leading (Parser.expressionWithin most) (most + 1)) ∧
      Descent.Reads (most + 1) 1 Descent.trailing
        (Parser.trailing (Parser.expressionWithin most)) ∧
      Descent.Reads (most + 1) 0 Descent.primary
        (Parser.primary (Parser.expressionWithin most)) := by
  refine ⟨fun depth => descent_ofTokens, fun parsed => no_token_left, fun most => ?_⟩
  have hnested := Descent.EndsWithin.expressionWithin most
  have hproceeds := Proceeds.expressionWithin most
  have hleading := Descent.EndsWithin.leading hnested hproceeds (Nat.le_refl _)
  have hoperand := Proceeds.leading hproceeds (most + 1)
  have hlevels : ∀ count ≤ 6, Descent.EndsUpTo (most + 1) (count + 3)
      (Descent.level · (operatorLevels.take count).reverse)
      ((operatorLevels.take count).foldl Parser.operatorLevel
        (Parser.leading (Parser.expressionWithin most) (most + 1))) := by
    intro count hcount
    have hlength : (operatorLevels.take count).reverse.length = count := by
      rw [List.length_reverse, List.length_take]
      exact Nat.min_eq_left hcount
    have hlevel := Descent.EndsWithin.level hleading hoperand (hlength ▸ hcount)
    rwa [hlength, List.reverse_reverse] at hlevel
  have hblock : Descent.EndsUpTo most 0 Descent.block (Parser.block Parser.statement) :=
    fun size depth hmost => Descent.EndsWithin.block (.statement most) Proceeds.statement size depth
      (Nat.le_succ_of_le hmost)
  refine ⟨?_, ?_, ?_, hblock.reads (Proceeds.block Proceeds.statement), ?_, ?_,
    fun count hcount => (hlevels count hcount).reads (Proceeds.levels hoperand _), ?_, ?_, ?_⟩
  · exact Descent.EndsUpTo.reads (fun _ _ _ hdepth => .type (Nat.le_of_lt hdepth)) Proceeds.type
  · exact Descent.EndsUpTo.reads (fun _ _ _ hdepth => .declaration (Nat.le_of_lt hdepth))
      Proceeds.declaration
  · exact Descent.EndsUpTo.reads (fun _ _ _ hdepth => .function (Nat.le_of_lt hdepth))
      Proceeds.function
  · exact (Descent.EndsWithin.statement most).reads Proceeds.statement
  · exact Descent.EndsUpTo.reads (fun _ _ _ => .expression) Proceeds.expression
  · exact hleading.reads hoperand
  · exact (Descent.EndsWithin.trailing hnested hproceeds).reads (Proceeds.trailing hproceeds)
  · exact (Descent.EndsWithin.primary hnested hproceeds).reads (Proceeds.primary hproceeds)

/-- The tokens of a program with a variable, a loop and an expression in parentheses,
`int n = 300; char main(char c) { while (c) n = (c + n) * 2; return c; }`. -/
def loopTokens : List (Located Token) :=
  ([.keyword .intType, .identifier "n", .mark .assign, .integer 300, .mark .semicolon,
    .keyword .charType, .identifier "main", .mark .openParen, .keyword .charType, .identifier "c",
    .mark .closeParen, .mark .openBrace, .keyword .whileLoop, .mark .openParen, .identifier "c",
    .mark .closeParen, .identifier "n", .mark .assign, .mark .openParen, .identifier "c",
    .mark .plus, .identifier "n", .mark .closeParen, .mark .star, .integer 2, .mark .semicolon,
    .keyword .returning, .identifier "c", .mark .semicolon, .mark .closeBrace] : List Token).map
      (⟨·, .startOf "<input>"⟩)

theorem loop_read_to_its_end :
    ∃ parsed after, 16 * loopTokens.length < 512 ∧
      Descent.ofTokens 512 loopTokens = some (.ok parsed) ∧
      Parser.program (.begin loopTokens) = .ok (parsed.program.items, after) ∧
      after.tokens = [] := by
  have hparsed : Program.ofTokens loopTokens = .ok _ :=
    eq_ok_of_isOk (by decide +kernel) ⟨⟨[], .initial⟩, []⟩
  have hdepth : 16 * loopTokens.length < 512 := by decide
  obtain ⟨hends, hconsumes, -⟩ := Program.reading_advances loopTokens
  obtain ⟨after, hrun, hnone⟩ := hconsumes _ hparsed
  exact ⟨_, after, hdepth, hparsed ▸ hends 512 hdepth, hrun, hnone⟩

end AccumulatorC
