import AccumulatorC.Proofs.Program.Parser.Unit

/-!
# Progress of parsers

A parser takes tokens from the front of those to come and leaves the others as they are. Whatever
stands for a construct of the language takes at least one.
-/

namespace AccumulatorC.Parser

variable {α β : Type}

/-- Between two states at least so many tokens have been taken from the front. -/
structure Leaves (least : Nat) (state after : ParseState) : Prop where
  tokens : ∃ taken, least ≤ taken.length ∧ state.tokens = taken ++ after.tokens
  bound : after.bound = state.bound

namespace Leaves

variable {least : Nat} {state middle after : ParseState}

theorem refl (state : ParseState) : Leaves 0 state state := ⟨⟨[], Nat.le_refl 0, rfl⟩, rfl⟩

/-- A change of anything but the tokens takes none. -/
theorem ofSame (htokens : after.tokens = state.tokens) (hbound : after.bound = state.bound) :
    Leaves 0 state after :=
  ⟨⟨[], Nat.le_refl 0, htokens.symm⟩, hbound⟩

theorem trans {more : Nat} (h : Leaves least state middle) (h' : Leaves more middle after) :
    Leaves (least + more) state after := by
  obtain ⟨taken, htaken, htokens⟩ := h.tokens
  obtain ⟨later, hlater, hrest⟩ := h'.tokens
  refine ⟨⟨taken ++ later, ?_, ?_⟩, h'.bound.trans h.bound⟩
  · rw [List.length_append]
    exact Nat.add_le_add htaken hlater
  · rw [htokens, hrest, List.append_assoc]

theorem length_le (h : Leaves least state after) :
    after.tokens.length + least ≤ state.tokens.length := by
  obtain ⟨taken, htaken, htokens⟩ := h.tokens
  rw [htokens, List.length_append]
  omega

theorem weaken {less : Nat} (h : Leaves least state after) (hless : less ≤ least) :
    Leaves less state after :=
  ⟨h.tokens.imp fun _ htaken => ⟨Nat.le_trans hless htaken.1, htaken.2⟩, h.bound⟩

end Leaves

/-- Every success of the parser takes at least so many tokens. -/
def Proceeds (least : Nat) (parser : Parser α) : Prop :=
  ∀ state, Ensures parser state fun _ after => Leaves least state after

namespace Proceeds

/-! ## Rules -/

section Rules

variable {least : Nat} {parser : Parser α} {second : α → Parser β}

/-- How many tokens a parser takes need not be known. -/
theorem uncounted (h : Proceeds least parser) : Proceeds 0 parser := fun state =>
  (h state).mono fun _ _ hleaves => hleaves.weaken (Nat.zero_le least)

theorem pure (value : α) : Proceeds 0 (Pure.pure value : Parser α) := fun state =>
  ensures_pure.mpr (.refl state)

/-- Tokens are taken by the second parser. -/
theorem bind (h : Proceeds 0 parser) (hsecond : ∀ value, Proceeds least (second value)) :
    Proceeds least (parser >>= second) := fun state =>
  ensures_bind.mpr <| (h state).mono fun value middle hleaves =>
    (hsecond value middle).mono fun _ _ hafter => by simpa using hleaves.trans hafter

/-- Tokens are taken by the first parser. -/
theorem andThen (h : Proceeds least parser) (hsecond : ∀ value, Proceeds 0 (second value)) :
    Proceeds least (parser >>= second) := fun state =>
  ensures_bind.mpr <| (h state).mono fun value middle hleaves =>
    (hsecond value middle).mono fun _ _ hafter => hleaves.trans hafter

theorem map {f : α → β} (h : Proceeds least parser) : Proceeds least (f <$> parser) := fun state =>
  ensures_map.mpr (h state)

theorem ite {c : Prop} [Decidable c] {yes no : Parser α} (hyes : Proceeds least yes)
    (hno : Proceeds least no) : Proceeds least (if c then yes else no) := by
  split
  · exact hyes
  · exact hno

/-- A parser that only some conditions call for, and what follows in any case. -/
theorem ifThen {c : Prop} [Decidable c] {rest : Parser β} (h : Proceeds 0 parser)
    (hrest : Proceeds least rest) :
    Proceeds least (if c then parser >>= fun _ => rest else rest) :=
  .ite (h.bind fun _ => hrest) hrest

theorem failAt {cause : ParseError} {location : Location} :
    Proceeds least (Parser.failAt cause location : Parser α) := fun _ => ensures_failAt

theorem fail {cause : ParseError} : Proceeds least (Parser.fail cause : Parser α) :=
  fun _ => ensures_fail

theorem throw {stop : Stop (Located ParseError)} :
    Proceeds least (MonadExcept.throw stop : Parser α) := fun _ => ensures_throw

theorem get : Proceeds 0 (MonadState.get : Parser ParseState) := fun state =>
  ensures_get.mpr (.refl state)

/-- A change of anything but the tokens. -/
theorem change {change : ParseState → ParseState} (htokens : ∀ s, (change s).tokens = s.tokens)
    (hbound : ∀ s, (change s).bound = s.bound) : Proceeds 0 (modify change : Parser PUnit) :=
  fun state => ensures_modify.mpr (.ofSame (htokens state) (hbound state))

theorem moveTo (scope : ScopeId) :
    Proceeds 0 (modify fun state => { state with scope } : Parser PUnit) :=
  change (fun _ => rfl) fun _ => rfl

theorem moveInto (scope : ScopeId) (result : Option Ty) :
    Proceeds 0 (modify fun state => { state with scope, result } : Parser PUnit) :=
  change (fun _ => rfl) fun _ => rfl

end Rules

/-! ## Single tokens -/

theorem last : Proceeds 0 Parser.last := get.bind fun _ => pure _

theorem scope : Proceeds 0 Parser.scope := get.bind fun _ => pure _

theorem bound : Proceeds 0 Parser.bound := get.bind fun _ => pure _

theorem peek : Proceeds 0 Parser.peek := get.bind fun _ => pure _

theorem peekLocation : Proceeds 0 Parser.peekLocation := get.bind fun _ => pure _

theorem next : Proceeds 1 Parser.next := by
  intro state
  simp only [Parser.next, ensures_bind, ensures_get]
  split
  next token rest htokens =>
    simp only [ensures_bind, ensures_set, ensures_pure]
    exact ⟨⟨[token], Nat.le_refl 1, htokens⟩, rfl⟩
  next => exact ensures_fail

/-- A token that may come next is taken exactly if it does. -/
theorem ensures_optional (token : Token) (state : ParseState) :
    Ensures (Parser.optional token) state fun found after =>
      Leaves (if found then 1 else 0) state after := by
  refine ensures_bind.mpr ((peek state).mono fun _ middle hpeek => ?_)
  refine ensures_ite.mpr ⟨fun _ => ensures_bind.mpr ?_, fun _ => ensures_pure.mpr hpeek⟩
  exact (next middle).mono fun _ _ hnext => ensures_pure.mpr (by simpa using hpeek.trans hnext)

theorem optional (token : Token) : Proceeds 0 (Parser.optional token) := fun state =>
  (ensures_optional token state).mono fun _ _ hleaves => hleaves.weaken (Nat.zero_le _)

/-- A parser that goes on by whether a token comes next, which counts if it does. -/
theorem ifOptional {least : Nat} {token : Token} {yes no : Parser α} (hyes : Proceeds least yes)
    (hno : Proceeds (least + 1) no) :
    Proceeds (least + 1) (do if ← Parser.optional token then yes else no) := by
  refine fun state => ensures_bind.mpr ((ensures_optional token state).mono fun found middle h => ?_)
  cases found with
  | true => exact (hyes middle).mono fun _ _ hafter => Nat.add_comm 1 least ▸ h.trans hafter
  | false => exact (hno middle).mono fun _ _ hafter => Nat.zero_add (least + 1) ▸ h.trans hafter

theorem expect (token : Token) : Proceeds 1 (Parser.expect token) := by
  refine peek.bind fun found => ?_
  cases found with
  | none => exact fail
  | some _ => exact next.andThen fun _ => .ite fail (pure _)

theorem identifier : Proceeds 1 Parser.identifier := by
  refine next.andThen fun token => ?_
  split
  · exact pure _
  · exact fail

theorem stars (count : Nat) (type : Ty) : Proceeds 0 (Parser.stars count type) := by
  induction count generalizing type with
  | zero => exact pure _
  | succ count ih => exact (optional _).bind fun _ => .ite (ih _) (pure _)

theorem type : Proceeds 1 Parser.type := by
  refine next.andThen fun token => ?_
  split
  · exact bound.bind fun count => stars count _
  · exact bound.bind fun count => stars count _
  · exact bound.bind fun count => stars count _
  · exact fail

/-! ## Rules of the language -/

theorem warn (warnings : List (Located Conversion)) : Proceeds 0 (Parser.warn warnings) :=
  change (fun _ => rfl) fun _ => rfl

theorem checked (result : Checked α) : Proceeds 0 (Parser.checked result) := by
  cases result with
  | ok value => exact pure value
  | error located => exact failAt

theorem built (result : Checked (Noted α)) : Proceeds 0 (Parser.built result) :=
  (checked result).bind fun _ => (warn _).bind fun _ => pure _

theorem bindValue (type : Ty) (value : Expr) : Proceeds 0 (Parser.bindValue type value) :=
  (checked _).bind warn

theorem withScopes {change : Scopes → Except Breakdown (α × Scopes)} :
    Proceeds 0 (Parser.withScopes change) := by
  intro state
  simp only [Parser.withScopes, ensures_bind, ensures_get]
  split
  · simp only [ensures_bind, ensures_set, ensures_pure]
    exact .ofSame rfl rfl
  · exact ensures_throw

theorem declare (scope : ScopeId) (name : Located String) (type : Ty) (external : Bool) :
    Proceeds 0 (Parser.declare scope name type external) := by
  intro state
  simp only [Parser.declare, ensures_bind, ensures_get]
  split
  · simp only [ensures_bind, ensures_set, ensures_pure]
    exact .ofSame rfl rfl
  · exact ensures_throw

theorem resolve (name : String) (location : Location) : Proceeds 0 (Parser.resolve name location) := by
  refine get.bind fun state => ?_
  split
  · exact pure _
  · exact throw

theorem requireVariable (type : Ty) (name : Located String) :
    Proceeds 0 (Parser.requireVariable type name) := .ite failAt (pure _)

/-- A list of elements takes at least the tokens of its first one. -/
theorem separated {element : Parser α} (h : Proceeds 1 element) (count : Nat) :
    Proceeds 1 (Parser.separated element count) := by
  induction count with
  | zero => exact fail
  | succ count ih =>
      exact h.andThen fun _ => (optional _).bind fun _ =>
        .ite (ih.uncounted.bind fun _ => pure _) (pure _)

/-! ## Expressions -/

section Expressions

variable {nested operand : Parser Expr}

theorem operatorTail (h : Proceeds 1 operand) (operators : List (Mark × BinaryOp))
    (start : Location) (count : Nat) (left : Expr) :
    Proceeds 0 (Parser.operatorTail operand operators start count left) := by
  induction count generalizing left with
  | zero => exact pure left
  | succ count ih =>
      refine peek.bind fun found => ?_
      cases operator? operators found with
      | some op =>
          exact next.uncounted.bind fun _ =>
            h.uncounted.bind fun _ =>
              scope.bind fun _ => last.bind fun _ => (built _).bind fun _ => ih _
      | none => exact pure left

theorem operatorLevel (h : Proceeds 1 operand) (operators : List (Mark × BinaryOp)) :
    Proceeds 1 (Parser.operatorLevel operand operators) :=
  peekLocation.bind fun start => h.andThen fun left =>
    bound.bind fun count => operatorTail h operators start count left

theorem call (h : Proceeds 1 nested) (name : String) (start : Location) :
    Proceeds 1 (Parser.call nested name start) := by
  refine (resolve name start).bind fun function => ?_
  cases function.type with
  | function result parameters =>
      have hrest : ∀ list : List Expr, Proceeds 0
          (do Parser.built (Expr.called (← Parser.scope) (.span start (← Parser.last)) function
            result parameters list)) := fun _ =>
        scope.bind fun _ => last.bind fun _ => built _
      -- There may be no arguments, so the token that counts is the parenthesis.
      refine (expect _).andThen fun _ => (optional _).bind fun _ => .ite (hrest []) ?_
      exact bound.bind fun count => (separated h count).uncounted.bind fun list =>
        (expect _).uncounted.bind fun _ => hrest list
  | _ => exact failAt

theorem literal (make : Note → Expr) (type : Ty) (location : Location) :
    Proceeds 0 (Parser.literal make type location) := scope.bind fun _ => pure _

theorem use (name : String) (location : Location) : Proceeds 0 (Parser.use name location) :=
  (resolve name location).bind fun _ => .ite failAt (scope.bind fun _ => pure _)

theorem primary (h : Proceeds 1 nested) : Proceeds 1 (Parser.primary nested) := by
  refine next.andThen fun token => ?_
  obtain ⟨token, location⟩ := token
  cases token with
  | integer value => exact literal _ _ location
  | character byte => exact literal _ _ location
  | string bytes => exact literal _ _ location
  | identifier name =>
      exact peek.bind fun _ => .ite (call h name location).uncounted
        (use name location)
  | mark m =>
      cases m with
      | openParen =>
          exact h.uncounted.bind fun inner =>
            (expect _).uncounted.bind fun _ => pure inner
      | _ => exact fail
  | _ => exact fail

theorem trailingSteps (start : Location) (count : Nat) (operand : Expr) :
    Proceeds 0 (Parser.trailingSteps start count operand) := by
  induction count generalizing operand with
  | zero => exact pure operand
  | succ count ih =>
      refine peek.bind fun found => ?_
      cases trailingStep? found with
      | some step =>
          exact next.uncounted.bind fun _ => scope.bind fun _ => last.bind fun _ =>
            (built _).bind fun _ => ih _
      | none => exact pure operand

theorem trailing (h : Proceeds 1 nested) : Proceeds 1 (Parser.trailing nested) :=
  peekLocation.bind fun start => (primary h).andThen fun operand =>
    bound.bind fun count => trailingSteps start count operand

theorem applyLeading (op : UnaryOp) (start : Location) (operand : Expr) :
    Proceeds 0 (Parser.applyLeading op start operand) := by
  refine scope.bind fun _ => last.bind fun _ => ?_
  cases op <;> exact built _

theorem leading (h : Proceeds 1 nested) (count : Nat) : Proceeds 1 (Parser.leading nested count) := by
  induction count with
  | zero => exact fail
  | succ count ih =>
      refine peekLocation.bind fun start => peek.bind fun found => ?_
      cases operator? leadingOperators found with
      | some op =>
          exact next.andThen fun _ => ih.uncounted.bind fun _ => applyLeading _ _ _
      | none => exact trailing h

/-- Any levels of operators over an operand. -/
theorem levels (h : Proceeds 1 operand) (list : List (List (Mark × BinaryOp))) :
    Proceeds 1 (list.foldl Parser.operatorLevel operand) := by
  induction list generalizing operand with
  | nil => exact h
  | cons operators list ih => exact ih (operatorLevel h operators)

end Expressions

theorem expressionWithin (count : Nat) : Proceeds 1 (Parser.expressionWithin count) := by
  induction count with
  | zero => exact fail
  | succ count ih =>
      refine peekLocation.bind fun start => (levels (leading ih _) _).andThen fun target => ?_
      refine (optional _).bind fun _ => .ite ?_ (pure _)
      exact ih.uncounted.bind fun _ => scope.bind fun _ => last.bind fun _ => built _

theorem expression : Proceeds 1 Parser.expression := bound.bind expressionWithin

/-! ## Statements -/

theorem initialValue (external : Bool) (type : Ty) (name : Located String) :
    Proceeds 1 (Parser.initialValue external type name) := by
  refine expression.andThen fun value => .ifThen fail ?_
  exact (bindValue type value).bind fun _ => scope.bind fun _ => .ifThen failAt (pure value)

/-- A declaration takes tokens, for it begins with a type. -/
theorem declaration : Proceeds 1 Parser.declaration := by
  refine (optional _).bind fun external => type.andThen fun type => ?_
  refine identifier.uncounted.bind fun name => ?_
  have hdeclare : ∀ initial : Option Expr, Proceeds 0
      (do return (⟨← Parser.declare (← Parser.scope) name type external, initial⟩ : Declaration)) :=
    fun _ => scope.bind fun _ => (declare _ _ _ _).bind fun _ => pure _
  refine .ifThen (requireVariable type name) ((optional _).bind fun _ => .ite ?_ (hdeclare none))
  exact (initialValue external type name).uncounted.map.bind hdeclare

theorem condition : Proceeds 1 Parser.condition :=
  (expect _).andThen fun _ => expression.uncounted.bind fun _ =>
    (expect _).uncounted.bind fun _ => (checked _).bind fun _ => pure _

theorem returnedValue : Proceeds 0 Parser.returnedValue := by
  refine get.bind fun state => (optional _).bind fun _ => .ite ?_ ?_
  · exact .ifThen fail (pure none)
  · refine expression.uncounted.bind fun value => ?_
    refine (expect _).uncounted.bind fun _ => .ifThen failAt ?_
    exact (bindValue _ value).bind fun _ => pure _

/-- An expression statement takes the tokens of its expression. -/
theorem expressionStatement : Proceeds 1 Parser.expressionStatement :=
  expression.andThen fun _ => (expect _).uncounted.bind fun _ =>
    .ifThen (checked _) (pure _)

section Blocks

variable {statement : Parser Statement} (hstatement : Proceeds 1 statement)
include hstatement

theorem blockRest (count : Nat) : Proceeds 1 (Parser.blockRest statement count) := by
  induction count with
  | zero => exact fail
  | succ count ih =>
      -- What is taken is the closing brace, or else a declaration or a statement.
      refine ifOptional (pure []) (peek.bind fun _ => ?_)
      have hrest : ∀ first : Statement, Proceeds 0
          (do return first :: (← Parser.blockRest statement count)) := fun _ =>
        ih.uncounted.bind fun _ => pure _
      refine .ite ?_ (hstatement.andThen hrest)
      exact declaration.andThen fun declared => (expect _).uncounted.bind fun _ =>
        hrest (.declaration declared)

/-- A block takes its braces. -/
theorem block : Proceeds 1 (Parser.block statement) :=
  (expect _).andThen fun _ => last.bind fun _ => scope.bind fun outer => withScopes.bind fun inner =>
    (moveTo inner).bind fun _ => bound.bind fun count =>
      (blockRest hstatement count).uncounted.bind fun _ =>
        (moveTo outer).bind fun _ => last.bind fun _ => pure _

end Blocks

/-- Every statement takes at least one token. -/
theorem statementWithin (count : Nat) : Proceeds 1 (Parser.statementWithin count) := by
  induction count with
  | zero => exact fail
  | succ count ih =>
      have hnested := ih.uncounted
      have hcondition := condition.uncounted
      refine peek.bind fun found => ?_
      split
      · exact (expect _).andThen fun _ => last.bind fun _ => returnedValue.bind fun _ =>
          scope.bind fun _ => pure _
      · exact (expect _).andThen fun _ => last.bind fun _ => hcondition.bind fun _ =>
          hnested.bind fun _ => (optional _).bind fun _ =>
            .ite (hnested.bind fun _ => pure _) (pure _)
      · exact (expect _).andThen fun _ => last.bind fun _ => hcondition.bind fun _ =>
          hnested.bind fun _ => pure _
      · exact (block ih).andThen fun _ => pure _
      · exact expressionStatement

theorem statement : Proceeds 1 Parser.statement := bound.bind statementWithin

/-! ## Programs -/

theorem parameter (scope : ScopeId) : Proceeds 1 (Parser.parameter scope) :=
  type.andThen fun _ => identifier.uncounted.bind fun _ =>
    (requireVariable _ _).bind fun _ => (declare _ _ _ _).bind fun _ => pure _

theorem function : Proceeds 1 Parser.function := by
  refine type.andThen fun result => identifier.uncounted.bind fun name => ?_
  refine (expect _).uncounted.bind fun _ => withScopes.bind fun scope => ?_
  have hrest : ∀ parameters : List Ty, Proceeds 0 (functionRest result name scope parameters) :=
    fun _ => (expect _).uncounted.bind fun _ => withScopes.bind fun _ =>
      (declare _ _ _ _).bind fun _ => (moveInto scope (some result)).bind fun _ =>
        (block statement).uncounted.bind fun _ =>
          (moveInto globalScope none).bind fun _ => pure _
  exact peek.bind fun _ => .ite (hrest []) (bound.bind fun count =>
    (separated (parameter scope) count).uncounted.bind hrest)

theorem item : Proceeds 1 Parser.item :=
  get.bind fun _ => .ite (function.andThen fun _ => pure _)
    (declaration.andThen fun _ => (expect _).uncounted.bind fun _ => pure _)

theorem items (count : Nat) : Proceeds 0 (Parser.items count) := by
  induction count with
  | zero => exact pure []
  | succ count ih =>
      exact peek.bind fun _ => .ite (pure []) (item.uncounted.bind fun _ =>
        ih.bind fun _ => pure _)

/-- Reading items ends only when no token is left. -/
theorem ensures_items {count : Nat} {state : ParseState} (hcount : state.tokens.length ≤ count) :
    Ensures (Parser.items count) state fun _ after => after.tokens = [] := by
  induction count generalizing state with
  | zero => exact ensures_pure.mpr (List.eq_nil_of_length_eq_zero (Nat.le_zero.mp hcount))
  | succ count ih =>
      simp only [Parser.items, Parser.peek, ensures_bind, ensures_get, ensures_pure, ensures_ite]
      refine ⟨fun hnone => by simpa using hnone, fun _ => ?_⟩
      refine (item state).mono fun first middle hleaves => ?_
      have hlength := hleaves.length_le
      exact ih (by omega)

/-- Reading a program ends only when no token is left. -/
theorem ensures_program {state : ParseState} (hbound : state.tokens.length ≤ state.bound) :
    Ensures Parser.program state fun _ after => after.tokens = [] := by
  simp only [Parser.program, Parser.bound, ensures_bind, ensures_get, ensures_pure]
  refine (ensures_items hbound).mono fun list after hnone => ?_
  split
  · exact ensures_ite.mpr ⟨fun _ => ensures_pure.mpr hnone, fun _ => ensures_fail⟩
  · exact ensures_fail

end Proceeds

end AccumulatorC.Parser
