import AccumulatorC.Token.Lexer

/-!
# Tokens without their places

What is read from bytes, but for its places, does not depend on the name of the source: the tokens
and the errors of one source are those of any other one with the same bytes.
-/

namespace AccumulatorC

/-- A token or an error without its place. -/
def LexItem.value : LexItem → Except LexError Token
  | .ok token => .ok token.value
  | .error cause => .error cause.value

/-- Tokens or errors without their places. -/
def tokenValues :
    Except (List (Located LexError)) (List (Located Token)) → Except (List LexError) (List Token)
  | .ok tokens => .ok (tokens.map (·.value))
  | .error errors => .error (errors.map (·.value))

/-- The tokens or the errors of bytes. -/
def readValues (bytes : ByteArray) : Except (List LexError) (List Token) :=
  tokenValues (Reading.ofBytes "" bytes).tokens

/-- The values of a reading are those of its tokens, if it has any. -/
theorem tokenValues_eq_ok {result : Except (List (Located LexError)) (List (Located Token))}
    {values : List Token} : tokenValues result = .ok values ↔
      ∃ tokens, result = .ok tokens ∧ tokens.map (·.value) = values := by
  cases result <;> simp [tokenValues]

section Lines

variable {source source' : Source}

theorem cutLine_values (start start' : Location) (p p' : Position) (text : List Char) :
    (cutLine source start p text).1.map LexItem.value =
        (cutLine source' start' p' text).1.map LexItem.value ∧
      (cutLine source start p text).2.entry = (cutLine source' start' p' text).2.entry := by
  fun_induction cutLine source start p text generalizing start' p' with
  | case1 start p =>
      rw [cutLine]
      exact ⟨rfl, rfl⟩
  | case2 start p first rest here hlexeme ih =>
      rw [cutLine]
      simp only [hlexeme]
      exact ih _ _
  | case3 start p first rest here token more hlexeme taken items state hrest ih =>
      obtain ⟨hitems, hentry⟩ := ih (.cell source' p') (p'.afterAll taken)
      rw [hrest] at hitems hentry
      rw [cutLine]
      simp only [hlexeme]
      exact ⟨congrArg (List.cons _) hitems, hentry⟩
  | case4 start p first rest here hlexeme =>
      rw [cutLine]
      simp only [hlexeme, and_self]
  | case5 start p first rest here hlexeme length hlength taken ih =>
      rw [cutLine]
      simp only [hlexeme, hlength]
      exact ih _ _
  | case6 start p first rest here hlexeme hlength =>
      rw [cutLine]
      simp only [hlexeme, hlength, and_self]
  | case7 start p first rest here cause hlexeme =>
      rw [cutLine]
      simp only [hlexeme]
      exact ⟨rfl, trivial⟩

theorem enterLine_values (number : Nat) {state state' : LexState}
    (h : state.entry = state'.entry) (line : List Char) :
    (enterLine source number state line).1.map LexItem.value =
        (enterLine source' number state' line).1.map LexItem.value ∧
      (enterLine source number state line).2.entry =
        (enterLine source' number state' line).2.entry := by
  unfold enterLine
  rw [← h]
  cases hentry : state.entry with
  | fresh => exact cutLine_values _ _ _ _ _
  | recovering => exact ⟨rfl, rfl⟩
  | comment =>
      cases commentLength? line with
      | some length => exact cutLine_values _ _ _ _ _
      | none => exact ⟨rfl, h⟩

theorem cutLinesFrom_values (number : Nat) {state state' : LexState}
    (h : state.entry = state'.entry) (lines : List (Option (List Char))) :
    (cutLinesFrom source number state lines).map LexItem.value =
      (cutLinesFrom source' number state' lines).map LexItem.value := by
  induction lines generalizing number state state' with
  | nil =>
      rw [cutLinesFrom, cutLinesFrom, h]
      split <;> rfl
  | cons line lines ih =>
      cases line with
      | none => exact congrArg (List.cons _) (ih (number + 1) rfl)
      | some line =>
          obtain ⟨hitems, hentry⟩ := enterLine_values number h line
          have hrest := ih (number + 1) hentry
          rw [cutLinesFrom, cutLinesFrom, List.map_append, List.map_append, hrest, hitems]

end Lines

/-- The errors among items without their places. -/
def errorValues (items : List (Except LexError Token)) : List LexError :=
  items.filterMap fun
    | .error e => some e
    | .ok _ => none

theorem errorValues_map {items : List LexItem} {error? : LexItem → Option (Located LexError)}
    (hok : ∀ token, error? (.ok token) = none)
    (herror : ∀ cause, error? (.error cause) = some cause) :
    errorValues (items.map LexItem.value) = (items.filterMap error?).map (·.value) := by
  rw [errorValues, List.map_filterMap, List.filterMap_map]
  congr 1
  funext item
  cases item with
  | ok token => rw [hok, Function.comp_apply, LexItem.value, Option.map_none]
  | error cause => rw [herror, Function.comp_apply, LexItem.value, Option.map_some]

/-- What items give, without their places. -/
theorem Reading.tokenValues_tokens (reading : Reading) :
    tokenValues reading.tokens =
      match errorValues (reading.items.map LexItem.value) with
      | [] => .ok ((reading.items.map LexItem.value).filterMap fun
          | .ok t => some t
          | .error _ => none)
      | errors => .error errors := by
  rw [Reading.tokens]
  split
  next hnone =>
    have herrors := congrArg (List.map (·.value)) hnone
    rw [← errorValues_map (fun _ => rfl) fun _ => rfl] at herrors
    rw [herrors, tokenValues, List.map_filterMap, List.filterMap_map]
    congr 2
    funext item
    cases item <;> rfl
  next hsome =>
    have herrors := mt (List.map_eq_nil_iff (f := Located.value)).mp hsome
    rw [← errorValues_map (fun _ => rfl) fun _ => rfl] at herrors
    rw [tokenValues, ← errorValues_map (fun _ => rfl) fun _ => rfl]
    split
    next hnone => exact absurd hnone herrors
    next => rfl

theorem Reading.values_ofBytes (name : String) (bytes : ByteArray) :
    tokenValues (ofBytes name bytes).tokens = readValues bytes := by
  have hitems : (ofBytes name bytes).items.map LexItem.value =
      (ofBytes "" bytes).items.map LexItem.value := by
    apply cutLinesFrom_values
    rfl
  rw [readValues, tokenValues_tokens, tokenValues_tokens, hitems]

end AccumulatorC
