import AccumulatorC.Proofs.Program.Elaboration
import AccumulatorC.Proofs.Program.Parser.Ensures
import AccumulatorC.Proofs.Program.Parser.Taking
import AccumulatorC.Proofs.Program.Parser.Unplaced

/-!
# Parsers in front of tokens

Without places the state of a parser is known from its setting, the warnings so far and the tokens to
come. Here is what the parsers of single tokens do in front of them.
-/

namespace AccumulatorC

/-- The tokens at no place. -/
def unplacedTokens (tokens : List Token) : List (Located Token) := tokens.map (⟨·, nowhere⟩)

namespace Parser

variable {α β : Type}

/-- The state of a parser in front of tokens, all without places. -/
def facing (bound : Nat) (given : Setting) (warnings : List Conversion) (coming : List Token) :
    ParseState :=
  ⟨unplacedTokens coming, bound, nowhere, given.scopes, given.scope, given.result,
    placeless warnings⟩

/-- The setting without places. -/
def Setting.unplaced (given : Setting) : Setting := { given with scopes := given.scopes.unplaced }

/-- What names mean in a setting. -/
def Setting.meaning (given : Setting) (name : String) : Option Symbol :=
  (given.scopes.lookup given.scope name).toOption

/-- A state without places is that of a parser in front of its tokens. -/
theorem unplaced_eq_facing (state : ParseState) :
    state.unplaced = facing state.bound (setting state).unplaced (state.warnings.map (·.value))
      state.coming := by
  simp [ParseState.unplaced, facing, unplacedTokens, placeless, ParseState.coming, setting,
    Setting.unplaced, Located.unplaced, Function.comp_def]

theorem map_value_unplacedTokens (tokens : List Token) :
    (unplacedTokens tokens).map (·.value) = tokens := by
  simp [unplacedTokens, Function.comp_def]

theorem map_value_placeless (warnings : List Conversion) :
    (placeless warnings).map (·.value) = warnings := by
  simp [placeless, Function.comp_def]

theorem coming_facing {bound : Nat} {given : Setting} {warnings : List Conversion}
    {coming : List Token} : (facing bound given warnings coming).coming = coming :=
  map_value_unplacedTokens coming

theorem facing_inj {bound bound' : Nat} {given given' : Setting} {warnings warnings' : List Conversion}
    {coming coming' : List Token}
    (h : facing bound given warnings coming = facing bound' given' warnings' coming') :
    given = given' ∧ warnings = warnings' ∧ coming = coming' := by
  refine ⟨congrArg setting h, ?_, ?_⟩
  · rw [← map_value_placeless warnings, ← map_value_placeless warnings']
    exact congrArg (fun state => state.warnings.map (·.value)) h
  · calc coming
        = (facing bound given warnings coming).coming := coming_facing.symm
      _ = (facing bound' given' warnings' coming').coming := congrArg ParseState.coming h
      _ = coming' := coming_facing

/-- A parser that succeeds without places succeeds with them. -/
theorem Forgets.run_ok {f : α → β} {parser : Parser α} {other : Parser β}
    (h : Forgets f parser other) {state after : ParseState} {value : β}
    (hrun : other state.unplaced = .ok (value, after)) :
    ∃ found final, parser state = .ok (found, final) ∧ f found = value ∧ final.unplaced = after := by
  rw [h state] at hrun
  cases hparser : parser state with
  | error stop => rw [hparser] at hrun; cases hrun
  | ok done =>
      rw [hparser] at hrun
      cases hrun
      exact ⟨done.1, done.2, rfl, rfl, rfl⟩

theorem run_bind {first : Parser α} {second : α → Parser β} {state after : ParseState} {value : α}
    (h : first state = .ok (value, after)) : (first >>= second) state = second value after := by
  simp only [Bind.bind, StateT.bind, Except.bind, h]

theorem run_pure {value : α} {state : ParseState} :
    (pure value : Parser α) state = .ok (value, state) := rfl

section Facing

variable {bound : Nat} {given : Setting} {warnings : List Conversion} {coming : List Token}
  {token : Token}

/-- The token in front is taken. -/
theorem next_facing :
    next (facing bound given warnings (token :: coming)) =
      .ok (⟨token, nowhere⟩, facing bound given warnings coming) := rfl

theorem peek_facing :
    peek (facing bound given warnings coming) =
      .ok (coming.head?, facing bound given warnings coming) := by
  cases coming <;> rfl

theorem peekLocation_facing :
    peekLocation (facing bound given warnings coming) =
      .ok (nowhere, facing bound given warnings coming) := by
  cases coming <;> rfl

theorem last_facing :
    last (facing bound given warnings coming) =
      .ok (nowhere, facing bound given warnings coming) := rfl

theorem scope_facing :
    scope (facing bound given warnings coming) =
      .ok (given.scope, facing bound given warnings coming) := rfl

theorem bound_facing :
    Parser.bound (facing bound given warnings coming) =
      .ok (bound, facing bound given warnings coming) := rfl

/-- A token that is looked for is taken if it is in front. -/
theorem optional_taken :
    optional token (facing bound given warnings (token :: coming)) =
      .ok (true, facing bound given warnings coming) := by
  rw [optional, run_bind peek_facing, List.head?_cons, if_pos rfl, run_bind next_facing]
  rfl

/-- Otherwise all tokens are left. -/
theorem optional_left (h : coming.head? ≠ some token) :
    optional token (facing bound given warnings coming) =
      .ok (false, facing bound given warnings coming) := by
  rw [optional, run_bind peek_facing, if_neg h]
  rfl

theorem expect_facing :
    expect token (facing bound given warnings (token :: coming)) =
      .ok ((), facing bound given warnings coming) := by
  rw [expect, run_bind peek_facing, List.head?_cons]
  dsimp only
  rw [run_bind next_facing, if_neg (by simp)]
  rfl

theorem warn_facing (more : List Conversion) :
    warn (placeless more) (facing bound given warnings coming) =
      .ok ((), facing bound given (warnings ++ more) coming) := by
  simp only [facing, placeless_append]
  rfl

/-- A rule that finds no error gives its value. -/
theorem checked_facing {result : Checked α} {value : α} (h : result = .ok value) :
    checked result (facing bound given warnings coming) =
      .ok (value, facing bound given warnings coming) := by
  subst h
  rfl

theorem built_facing {result : Checked (Noted Expr)} {e : Expr} {more : List Conversion}
    (h : result = .ok ⟨e, placeless more⟩) :
    built result (facing bound given warnings coming) =
      .ok (e, facing bound given (warnings ++ more) coming) := by
  rw [built, run_bind (checked_facing h), run_bind (warn_facing more)]
  rfl

theorem literal_facing {make : Note → Expr} {type : Ty} :
    literal make type nowhere (facing bound given warnings coming) =
      .ok (make ⟨type, given.scope, true, nowhere⟩, facing bound given warnings coming) := rfl

/-- A name is resolved to what it means in the setting. -/
theorem resolve_facing {name : String} {symbol : Symbol} (h : given.meaning name = some symbol) :
    resolve name nowhere (facing bound given warnings coming) =
      .ok (symbol, facing bound given warnings coming) := by
  have hfound : given.scopes.lookup given.scope name = .ok symbol := by
    unfold Setting.meaning at h
    cases hlookup : given.scopes.lookup given.scope name with
    | error stop => rw [hlookup] at h; cases h
    | ok found => rw [hlookup] at h; cases h; rfl
  have hget : (get : Parser ParseState) (facing bound given warnings coming) =
      .ok (facing bound given warnings coming, facing bound given warnings coming) := rfl
  rw [resolve, run_bind hget,
    show (facing bound given warnings coming).scopes = given.scopes from rfl,
    show (facing bound given warnings coming).scope = given.scope from rfl, hfound]
  rfl

end Facing

end Parser

end AccumulatorC
