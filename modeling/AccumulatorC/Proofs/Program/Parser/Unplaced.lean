import AccumulatorC.Proofs.Program.Parser.Unit
import AccumulatorC.Proofs.Program.Unplaced

/-!
# Reading without places

A parser that is given tokens without places gives what it gives for the tokens with their places,
without the places. It refuses them for the same reason, too.
-/

namespace AccumulatorC

/-- A state of a parser without places. -/
def ParseState.unplaced (state : ParseState) : ParseState :=
  { state with
    tokens := state.tokens.map Located.unplaced
    last := nowhere
    scopes := state.scopes.unplaced
    warnings := state.warnings.map Located.unplaced }

namespace Parser

variable {α β γ δ : Type}

/-- What a parser gives, or why it stops, without places. -/
def forget (f : α → β) : Except (Stop (Located ParseError)) (α × ParseState) →
    Except (Stop (Located ParseError)) (β × ParseState)
  | .ok (value, state) => .ok (f value, state.unplaced)
  | .error stop => .error (stop.map ParseError.located)

/-- Without places, a parser does what another one does. -/
def Forgets (f : α → β) (parser : Parser α) (other : Parser β) : Prop :=
  ∀ state : ParseState, other state.unplaced = forget f (parser state)

namespace Forgets

variable {f : α → β} {g : γ → δ} {parser : Parser α} {other : Parser β}

theorem pure (f : α → β) (value : α) : Forgets f (Pure.pure value) (Pure.pure (f value)) :=
  fun _ => rfl

theorem bind {second : α → Parser γ} {second' : β → Parser δ} (h : Forgets f parser other)
    (hsecond : ∀ value, Forgets g (second value) (second' (f value))) :
    Forgets g (parser >>= second) (other >>= second') := by
  intro state
  have hrun := h state
  simp only [Bind.bind, StateT.bind, hrun]
  cases parser state with
  | error stop => rfl
  | ok done => exact hsecond done.1 done.2

theorem map {h : β → δ} {k : α → γ} (hparser : Forgets f parser other)
    (hsquare : ∀ value, h (f value) = g (k value)) : Forgets g (k <$> parser) (h <$> other) := by
  rw [map_eq_pure_bind, map_eq_pure_bind]
  refine hparser.bind fun value => ?_
  rw [hsquare]
  exact pure g _

theorem ite {c : Prop} [Decidable c] {yes no : Parser α} {yes' no' : Parser β}
    (hyes : Forgets f yes yes') (hno : Forgets f no no') :
    Forgets f (if c then yes else no) (if c then yes' else no') := by
  split
  · exact hyes
  · exact hno

theorem throw (stop : Stop (Located ParseError)) :
    Forgets f (throw stop) (throw (stop.map ParseError.located)) := fun _ => rfl

theorem failAt (cause : ParseError) (location : Location) :
    Forgets f (Parser.failAt cause location) (Parser.failAt cause.unplaced nowhere) := throw _

theorem get : Forgets ParseState.unplaced MonadState.get MonadState.get := fun _ => rfl

theorem fail (cause : ParseError) : Forgets f (Parser.fail cause) (Parser.fail cause.unplaced) :=
  get.bind fun _ => failAt cause _

/-- A change of the state that does not look at places. -/
theorem change {change change' : ParseState → ParseState}
    (h : ∀ state, change' state.unplaced = (change state).unplaced) :
    Forgets id (modify change : Parser PUnit) (modify change') := fun state =>
  congrArg (fun after => Except.ok (PUnit.unit, after)) (h state)

theorem moveTo (scope : ScopeId) :
    Forgets id (modify fun state => { state with scope } : Parser PUnit)
      (modify fun state => { state with scope }) :=
  change fun _ => rfl

theorem moveInto (scope : ScopeId) (result : Option Ty) :
    Forgets id (modify fun state => { state with scope, result } : Parser PUnit)
      (modify fun state => { state with scope, result }) :=
  change fun _ => rfl

theorem last : Forgets (fun _ => nowhere) Parser.last Parser.last := fun _ => rfl

theorem scope : Forgets id Parser.scope Parser.scope := fun _ => rfl

theorem bound : Forgets id Parser.bound Parser.bound := fun _ => rfl

theorem peek : Forgets id Parser.peek Parser.peek := by
  rintro ⟨tokens, _, _, _, _, _, _⟩
  cases tokens <;> rfl

theorem peekLocation : Forgets (fun _ => nowhere) Parser.peekLocation Parser.peekLocation := by
  rintro ⟨tokens, _, _, _, _, _, _⟩
  cases tokens <;> rfl

theorem next : Forgets Located.unplaced Parser.next Parser.next := by
  rintro ⟨tokens, _, _, _, _, _, _⟩
  cases tokens <;> rfl

theorem optional (token : Token) : Forgets id (Parser.optional token) (Parser.optional token) :=
  peek.bind fun _ => ite (next.bind fun _ => pure id true) (pure id false)

theorem expect (token : Token) : Forgets id (Parser.expect token) (Parser.expect token) := by
  refine peek.bind fun found => ?_
  cases found with
  | none => exact fail _
  | some _ => exact next.bind fun found => ite (fail (.unexpectedToken token found.value)) (pure id ())

theorem identifier : Forgets Located.unplaced Parser.identifier Parser.identifier := by
  refine next.bind fun token => ?_
  obtain ⟨token, location⟩ := token
  cases token with
  | identifier name => exact pure Located.unplaced ⟨name, location⟩
  | _ => exact fail .expectedIdentifier

theorem stars (count : Nat) (type : Ty) :
    Forgets id (Parser.stars count type) (Parser.stars count type) := by
  induction count generalizing type with
  | zero => exact pure id type
  | succ count ih => exact (optional _).bind fun _ => ite (ih (.pointer type)) (pure id type)

theorem type : Forgets id Parser.type Parser.type := by
  refine next.bind fun token => ?_
  obtain ⟨token, location⟩ := token
  have hstars : ∀ base : Ty, Forgets id (do Parser.stars (← Parser.bound) base)
      (do Parser.stars (← Parser.bound) base) := fun base => bound.bind fun count => stars count base
  cases token with
  | keyword word => cases word <;> first | exact hstars _ | exact fail .expectedType
  | _ => exact fail .expectedType

theorem warn (warnings : List (Located Conversion)) :
    Forgets id (Parser.warn warnings) (Parser.warn (warnings.map Located.unplaced)) :=
  change fun state => by simp [ParseState.unplaced]

theorem checked {result : Checked α} {result' : Checked β} (h : result' = result.unplaced f) :
    Forgets f (Parser.checked result) (Parser.checked result') := by
  subst h
  cases result with
  | ok value => exact pure f value
  | error error => exact failAt error.value error.location

theorem built {result result' : Checked (Noted Expr)} (h : result' = result.unplaced Noted.unplaced) :
    Forgets Expr.unplaced (Parser.built result) (Parser.built result') :=
  (checked h).bind fun noted => (warn noted.warnings).bind fun _ => pure Expr.unplaced noted.value

theorem bindValue (type : Ty) (value : Expr) :
    Forgets id (Parser.bindValue type value) (Parser.bindValue type value.unplaced) :=
  (checked (Checked.bindValue_unplaced type value)).bind fun warnings => warn warnings

theorem requireValue (value : Expr) :
    Forgets id (Parser.checked (Checked.requireValue value))
      (Parser.checked (Checked.requireValue value.unplaced)) :=
  checked (Checked.requireValue_unplaced value)

theorem withScopes {change : Scopes → Except Breakdown (α × Scopes)}
    (h : ∀ scopes, change scopes.unplaced =
      (change scopes).map fun changed => (changed.1, changed.2.unplaced)) :
    Forgets id (Parser.withScopes change) (Parser.withScopes change) := by
  refine get.bind fun state => ?_
  rw [show state.unplaced.scopes = state.scopes.unplaced from rfl, h]
  cases change state.scopes with
  | error cause => exact throw (.breakdown cause)
  | ok changed => exact fun _ => rfl

theorem enterScope (parent : ScopeId) :
    Forgets id (Parser.enterScope parent) (Parser.enterScope parent) :=
  withScopes fun scopes => scopes.unplaced_enter parent

theorem reserve (scope : ScopeId) (bytes : Nat) :
    Forgets id (Parser.reserve scope bytes) (Parser.reserve scope bytes) :=
  withScopes fun scopes => by
    rw [scopes.unplaced_reserve]
    cases scopes.reserve scope bytes <;> rfl

theorem declare (scope : ScopeId) (name : Located String) (type : Ty) (external : Bool) :
    Forgets Symbol.unplaced (Parser.declare scope name type external)
      (Parser.declare scope name.unplaced type external) := by
  refine get.bind fun state => ?_
  rw [show state.unplaced.scopes = state.scopes.unplaced from rfl, Located.unplaced_value,
    Located.unplaced_location, Scopes.unplaced_declare _ _ _ name.location]
  cases state.scopes.declare scope name.value name.location type external with
  | error stop => cases stop <;> exact fun _ => rfl
  | ok declared => exact fun _ => rfl

theorem resolve (name : String) (location : Location) :
    Forgets Symbol.unplaced (Parser.resolve name location) (Parser.resolve name nowhere) := by
  refine get.bind fun state => ?_
  rw [show state.unplaced.scopes = state.scopes.unplaced from rfl,
    show state.unplaced.scope = state.scope from rfl, Scopes.unplaced_lookup]
  cases state.scopes.lookup state.scope name with
  | error stop => cases stop <;> exact fun _ => rfl
  | ok symbol => exact fun _ => rfl

theorem requireVariable (type : Ty) (name : Located String) :
    Forgets id (Parser.requireVariable type name) (Parser.requireVariable type name.unplaced) :=
  ite (failAt (.voidVariable name.value) name.location) (pure id ())

theorem separated {element : Parser α} {element' : Parser β} (h : Forgets f element element')
    (count : Nat) :
    Forgets (List.map f) (Parser.separated element count) (Parser.separated element' count) := by
  induction count with
  | zero => exact fail .unexpectedEnd
  | succ count ih =>
      refine h.bind fun first => (optional _).bind fun _ => ite ?_ (pure (List.map f) [first])
      exact ih.bind fun rest => pure (List.map f) (first :: rest)

/-! ## Expressions -/

section Expressions

variable {nested nested' : Parser Expr} (hnested : Forgets Expr.unplaced nested nested')
include hnested

/-- Operators and operands are read the same way without places. -/
theorem operatorTail (operators : List (Mark × BinaryOp)) (start : Location) (count : Nat)
    (left : Expr) :
    Forgets Expr.unplaced (Parser.operatorTail nested operators start count left)
      (Parser.operatorTail nested' operators nowhere count left.unplaced) := by
  induction count generalizing left with
  | zero => exact pure Expr.unplaced left
  | succ count ih =>
      refine peek.bind fun token => ?_
      dsimp only [id]
      cases operator? operators token with
      | none => exact pure Expr.unplaced left
      | some op =>
          refine next.bind fun _ => hnested.bind fun right => scope.bind fun here => ?_
          refine last.bind fun finish => (built ?_).bind fun whole => ih whole
          exact Expr.combined_unplaced here (.span start finish) op left right

theorem operatorLevel (operators : List (Mark × BinaryOp)) :
    Forgets Expr.unplaced (Parser.operatorLevel nested operators)
      (Parser.operatorLevel nested' operators) :=
  peekLocation.bind fun start => hnested.bind fun left => bound.bind fun count =>
    operatorTail hnested operators start count left

theorem call (name : String) (start : Location) :
    Forgets Expr.unplaced (Parser.call nested name start) (Parser.call nested' name nowhere) := by
  refine (resolve name start).bind fun function => ?_
  rw [Symbol.unplaced_type]
  cases function.type with
  | function result parameters =>
      have hrest : ∀ arguments : List Expr, Forgets Expr.unplaced
          (do Parser.built (Expr.called (← Parser.scope) (.span start (← Parser.last)) function
            result parameters arguments))
          (do Parser.built (Expr.called (← Parser.scope) (.span nowhere (← Parser.last))
            function.unplaced result parameters (arguments.map Expr.unplaced))) := fun arguments =>
        scope.bind fun here => last.bind fun finish =>
          built (Expr.called_unplaced here (.span start finish) function result parameters arguments)
      refine (expect _).bind fun _ => (optional _).bind fun _ => ite (hrest []) ?_
      exact bound.bind fun count => (separated hnested count).bind fun arguments =>
        (expect _).bind fun _ => hrest arguments
  | _ => exact failAt (.notFunction name) start

omit hnested in
theorem use (name : String) (location : Location) :
    Forgets Expr.unplaced (Parser.use name location) (Parser.use name nowhere) := by
  refine (resolve name location).bind fun symbol => ?_
  refine ite (failAt (.functionValue name) location) (scope.bind fun here => ?_)
  exact pure Expr.unplaced (.name ⟨symbol.type, here, false, location⟩ symbol)

omit hnested in
theorem literal {make : Note → Expr} (h : ∀ note, make note.unplaced = (make note).unplaced)
    (type : Ty) (location : Location) :
    Forgets Expr.unplaced (Parser.literal make type location)
      (Parser.literal make type nowhere) := by
  refine scope.bind fun here => ?_
  have hmake := h ⟨type, here, true, location⟩
  rw [show (id here : ScopeId) = here from rfl]
  exact hmake ▸ pure Expr.unplaced (make ⟨type, here, true, location⟩)

/-- What stands by itself is read the same way without places. -/
theorem primary : Forgets Expr.unplaced (Parser.primary nested) (Parser.primary nested') := by
  refine next.bind fun token => ?_
  obtain ⟨token, location⟩ := token
  cases token with
  | integer value => exact literal (fun _ => by simp [Expr.unplaced]) _ location
  | character byte => exact literal (fun _ => by simp [Expr.unplaced]) _ location
  | string bytes => exact literal (fun _ => by simp [Expr.unplaced]) _ location
  | identifier name =>
      exact peek.bind fun _ => ite (call hnested name location) (use name location)
  | mark m =>
      cases m with
      | openParen => exact hnested.bind fun inner => (expect _).bind fun _ => pure Expr.unplaced inner
      | _ => exact fail .expectedExpression
  | _ => exact fail .expectedExpression

omit hnested in
theorem trailingSteps (start : Location) (count : Nat) (operand : Expr) :
    Forgets Expr.unplaced (Parser.trailingSteps start count operand)
      (Parser.trailingSteps nowhere count operand.unplaced) := by
  induction count generalizing operand with
  | zero => exact pure Expr.unplaced operand
  | succ count ih =>
      refine peek.bind fun token => ?_
      dsimp only [id]
      cases trailingStep? token with
      | none => exact pure Expr.unplaced operand
      | some step =>
          refine next.bind fun _ => scope.bind fun here => last.bind fun finish => ?_
          refine (built ?_).bind fun whole => ih whole
          exact Expr.steppedAfter_unplaced here (.span start finish) step.1 step.2 operand

theorem trailing : Forgets Expr.unplaced (Parser.trailing nested) (Parser.trailing nested') :=
  peekLocation.bind fun start => (primary hnested).bind fun operand => bound.bind fun count =>
    trailingSteps start count operand

omit hnested in
theorem applyLeading (op : UnaryOp) (start : Location) (operand : Expr) :
    Forgets Expr.unplaced (Parser.applyLeading op start operand)
      (Parser.applyLeading op nowhere operand.unplaced) := by
  refine scope.bind fun here => last.bind fun finish => ?_
  have hstepped := built (Expr.stepped_unplaced here (.span start finish) op operand)
  have happlied := built (Expr.applied_unplaced here (.span start finish) op operand)
  cases op <;> first | exact hstepped | exact happlied

theorem leading (count : Nat) :
    Forgets Expr.unplaced (Parser.leading nested count) (Parser.leading nested' count) := by
  induction count with
  | zero => exact fail .unexpectedEnd
  | succ count ih =>
      refine peekLocation.bind fun start => peek.bind fun token => ?_
      dsimp only [id]
      cases operator? leadingOperators token with
      | none => exact trailing hnested
      | some op => exact next.bind fun _ => ih.bind fun operand => applyLeading op start operand

theorem operators (count : Nat) :
    Forgets Expr.unplaced (Parser.operators nested count) (Parser.operators nested' count) := by
  have hlevels : ∀ (levels : List (List (Mark × BinaryOp))) (operand operand' : Parser Expr),
      Forgets Expr.unplaced operand operand' →
      Forgets Expr.unplaced (levels.foldl Parser.operatorLevel operand)
        (levels.foldl Parser.operatorLevel operand') := by
    intro levels
    induction levels with
    | nil => exact fun _ _ h => h
    | cons level levels ih => exact fun _ _ h => ih _ _ (operatorLevel h level)
  exact hlevels _ _ _ (leading hnested count)

end Expressions

/-- Expressions are read the same way without places, by induction on the bound. -/
theorem expressionWithin (count : Nat) :
    Forgets Expr.unplaced (Parser.expressionWithin count) (Parser.expressionWithin count) := by
  induction count with
  | zero => exact fail .unexpectedEnd
  | succ count ih =>
      refine peekLocation.bind fun start => (operators ih _).bind fun target => ?_
      refine (optional _).bind fun _ => ite ?_ (pure Expr.unplaced target)
      refine ih.bind fun value => scope.bind fun here => last.bind fun finish => built ?_
      exact Expr.assigned_unplaced here (.span start finish) target value

theorem expression : Forgets Expr.unplaced Parser.expression Parser.expression :=
  bound.bind fun count => expressionWithin count

/-! ## Statements -/

theorem initialValue (external : Bool) (type : Ty) (name : Located String) :
    Forgets Expr.unplaced (Parser.initialValue external type name)
      (Parser.initialValue external type name.unplaced) := by
  refine expression.bind fun value => ?_
  have hrest : Forgets Expr.unplaced
      (do
        Parser.bindValue type value
        if (← Parser.scope) = globalScope ∧ ¬ value.isInitializer then
          Parser.failAt (.notConstant name.value) value.location
        return value)
      (do
        Parser.bindValue type value.unplaced
        if (← Parser.scope) = globalScope ∧ ¬ value.unplaced.isInitializer then
          Parser.failAt (.notConstant name.value) value.unplaced.location
        return value.unplaced) := by
    refine (bindValue type value).bind fun _ => scope.bind fun here => ?_
    rw [Expr.unplaced_isInitializer, Expr.unplaced_location]
    refine ite ?_ (pure Expr.unplaced value)
    exact (failAt (f := id) _ _).bind fun _ => pure Expr.unplaced value
  -- An external variable with an initial value is refused, and the branches go on alike.
  exact ite ((fail (f := id) (.externalInitializer name.value)).bind fun _ => hrest) hrest

/-- Declarations are read the same way without places. -/
theorem declaration : Forgets Declaration.unplaced Parser.declaration Parser.declaration := by
  refine (optional _).bind fun external => type.bind fun type => identifier.bind fun name => ?_
  have hdeclare : ∀ initial : Option Expr, Forgets Declaration.unplaced
      (do return ⟨← Parser.declare (← Parser.scope) name type external, initial⟩)
      (do
        let symbol ← Parser.declare (← Parser.scope) name.unplaced type external
        return ⟨symbol, initial.map Expr.unplaced⟩) := fun initial =>
    scope.bind fun here => (declare here name type external).bind fun symbol =>
      pure Declaration.unplaced ⟨symbol, initial⟩
  have hrest : Forgets Declaration.unplaced
      (do
        let initial ←
          if ← Parser.optional (.mark .assign) then
            some <$> Parser.initialValue external type name
          else Pure.pure none
        return ⟨← Parser.declare (← Parser.scope) name type external, initial⟩)
      (do
        let initial ←
          if ← Parser.optional (.mark .assign) then
            some <$> Parser.initialValue external type name.unplaced
          else Pure.pure none
        return ⟨← Parser.declare (← Parser.scope) name.unplaced type external, initial⟩) := by
    refine (optional _).bind fun _ => ite ?_ (hdeclare none)
    have hinitial : Forgets (Option.map Expr.unplaced)
        (some <$> Parser.initialValue external type name)
        (some <$> Parser.initialValue external type name.unplaced) :=
      (initialValue external type name).map fun _ => rfl
    exact hinitial.bind hdeclare
  exact ite ((requireVariable type name).bind fun _ => hrest) hrest

theorem condition : Forgets Expr.unplaced Parser.condition Parser.condition :=
  (expect _).bind fun _ => expression.bind fun value => (expect _).bind fun _ =>
    (requireValue value).bind fun _ => pure Expr.unplaced value

theorem returnedValue :
    Forgets (Option.map Expr.unplaced) Parser.returnedValue Parser.returnedValue := by
  refine get.bind fun state => ?_
  dsimp only [ParseState.unplaced]
  refine (optional _).bind fun _ => ite ?_ ?_
  · have hnone := pure (Option.map Expr.unplaced) none
    exact ite ((fail (f := id) (.missingReturnValue _)).bind fun _ => hnone) hnone
  · refine expression.bind fun value => (expect _).bind fun _ => ?_
    have hrest : Forgets (Option.map Expr.unplaced)
        (do
          Parser.bindValue (state.result.getD .void) value
          return some value)
        (do
          Parser.bindValue (state.result.getD .void) value.unplaced
          return some value.unplaced) :=
      (bindValue _ value).bind fun _ => pure (Option.map Expr.unplaced) (some value)
    rw [Expr.unplaced_location]
    exact ite ((failAt (f := id) .returnInVoid value.location).bind fun _ => hrest) hrest

theorem expressionStatement :
    Forgets Statement.unplaced Parser.expressionStatement Parser.expressionStatement := by
  refine expression.bind fun value => (expect _).bind fun _ => ?_
  have hvalue := pure Statement.unplaced (.expression value)
  rw [Expr.unplaced_isCall]
  exact ite ((requireValue value).bind fun _ => hvalue) hvalue

section Blocks

variable {statement : Parser Statement}
  (hstatement : Forgets Statement.unplaced statement statement)
include hstatement

theorem blockRest (count : Nat) :
    Forgets Statement.allUnplaced (Parser.blockRest statement count)
      (Parser.blockRest statement count) := by
  induction count with
  | zero => exact fail .unexpectedEnd
  | succ count ih =>
      refine (optional _).bind fun _ => ite (pure Statement.allUnplaced []) ?_
      have hrest : ∀ first : Statement, Forgets Statement.allUnplaced
          (do return first :: (← Parser.blockRest statement count))
          (do return first.unplaced :: (← Parser.blockRest statement count)) := fun first =>
        ih.bind fun rest => pure Statement.allUnplaced (first :: rest)
      refine peek.bind fun token => ite ?_ (hstatement.bind hrest)
      exact declaration.bind fun declared => (expect _).bind fun _ => hrest (.declaration declared)

/-- Blocks are read the same way without places. -/
theorem block :
    Forgets (fun read => (read.1, Statement.allUnplaced read.2.1, nowhere))
      (Parser.block statement) (Parser.block statement) := by
  refine (expect _).bind fun _ => last.bind fun start => scope.bind fun outer => ?_
  refine (enterScope outer).bind fun inner => (moveTo inner).bind fun _ => ?_
  refine bound.bind fun count => (blockRest hstatement count).bind fun body => ?_
  refine (moveTo outer).bind fun _ => last.bind fun finish => ?_
  exact pure _ (inner, body, Location.span start finish)

end Blocks

/-- Statements are read the same way without places, by induction on the bound. -/
theorem statementWithin (count : Nat) :
    Forgets Statement.unplaced (Parser.statementWithin count) (Parser.statementWithin count) := by
  induction count with
  | zero => exact fail .unexpectedEnd
  | succ count ih =>
      refine peek.bind fun token => ?_
      dsimp only [id]
      split
      · refine (expect _).bind fun _ => last.bind fun location => returnedValue.bind fun value => ?_
        exact scope.bind fun here => pure Statement.unplaced (.returning value here location)
      · refine (expect _).bind fun _ => last.bind fun location => condition.bind fun condition => ?_
        refine ih.bind fun yes => (optional _).bind fun _ => ite ?_ ?_
        · exact ih.bind fun no => pure Statement.unplaced (.branch condition yes (some no) location)
        · exact pure Statement.unplaced (.branch condition yes none location)
      · refine (expect _).bind fun _ => last.bind fun location => condition.bind fun condition => ?_
        exact ih.bind fun body => pure Statement.unplaced (.loop condition body location)
      · exact (block ih).bind fun read => pure Statement.unplaced (.block read.1 read.2.1 read.2.2)
      · exact expressionStatement

theorem statement : Forgets Statement.unplaced Parser.statement Parser.statement :=
  bound.bind fun count => statementWithin count

/-! ## Programs -/

theorem parameter (scope : ScopeId) : Forgets id (Parser.parameter scope) (Parser.parameter scope) :=
  type.bind fun type => identifier.bind fun name => (requireVariable type name).bind fun _ =>
    (declare scope name type false).bind fun _ => pure id type

theorem function : Forgets Function.unplaced Parser.function Parser.function := by
  refine type.bind fun result => identifier.bind fun name => (expect _).bind fun _ => ?_
  refine (enterScope globalScope).bind fun scope => peek.bind fun token => ?_
  have hrest : ∀ parameters : List Ty, Forgets Function.unplaced
      (functionRest result name scope parameters)
      (functionRest result name.unplaced scope (parameters.map id)) := by
    intro parameters
    rw [List.map_id]
    refine (expect _).bind fun _ => (reserve scope _).bind fun _ => ?_
    refine (declare globalScope name _ false).bind fun symbol => ?_
    refine (moveInto scope (some result)).bind fun _ => ?_
    refine (block statement).bind fun read => (moveInto globalScope none).bind fun _ => ?_
    exact pure Function.unplaced ⟨symbol, scope, read.1, read.2.1, read.2.2⟩
  refine ite (hrest []) (bound.bind fun count => ?_)
  exact (separated (parameter scope) count).bind hrest

theorem beginsFunction_unplaced (tokens : List (Located Token)) :
    beginsFunction (tokens.map Located.unplaced) = beginsFunction tokens := by
  have hdrop : (tokens.map Located.unplaced).dropWhile (beforeName ·.value) =
      (tokens.dropWhile (beforeName ·.value)).map Located.unplaced := by
    rw [List.dropWhile_map]
    rfl
  rw [beginsFunction, hdrop, beginsFunction]
  generalize tokens.dropWhile (beforeName ·.value) = rest
  -- Only the first two tokens behind what stands before a name decide.
  match rest with
  | [] => rfl
  | [⟨first, _⟩] => cases first <;> rfl
  | ⟨first, _⟩ :: ⟨second, _⟩ :: _ =>
      cases first with
      | identifier name =>
          cases second with
          | mark m => cases m <;> rfl
          | _ => rfl
      | _ => rfl

theorem item : Forgets Item.unplaced Parser.item Parser.item := by
  refine get.bind fun state => ?_
  rw [show beginsFunction state.unplaced.tokens = beginsFunction state.tokens from
    beginsFunction_unplaced state.tokens]
  refine ite (function.bind fun defined => pure Item.unplaced (.function defined)) ?_
  exact declaration.bind fun declared => (expect _).bind fun _ =>
    pure Item.unplaced (.global declared)

theorem items (count : Nat) :
    Forgets (List.map Item.unplaced) (Parser.items count) (Parser.items count) := by
  induction count with
  | zero => exact pure (List.map Item.unplaced) []
  | succ count ih =>
      refine peek.bind fun token => ite (pure (List.map Item.unplaced) []) ?_
      exact item.bind fun first => ih.bind fun rest => pure (List.map Item.unplaced) (first :: rest)

theorem program : Forgets (List.map Item.unplaced) Parser.program Parser.program := by
  refine bound.bind fun count => (items count).bind fun list => get.bind fun state => ?_
  rw [show state.unplaced.scopes = state.scopes.unplaced from rfl, Scopes.unplaced_lookup]
  cases state.scopes.lookup globalScope mainName with
  | ok main => exact ite (pure (List.map Item.unplaced) list) (fail .noMain)
  | error _ => exact fail .noMain

end Forgets

end Parser

/-- What reading a program gives, from what its parser does. -/
theorem Program.ofTokens_eq {tokens : List (Located Token)} {last : Location}
    (hlast : last = tokens.head?.elim nowhere (·.location)) :
    Program.ofTokens tokens =
      match Parser.program ⟨tokens, tokens.length, last, .initial, globalScope, none, []⟩ with
      | .ok (list, state) => .ok ⟨⟨list, state.scopes⟩, state.warnings⟩
      | .error stop => .error stop := by
  subst hlast
  rfl

/-- Without places a program is read as it is with them, and refused for the same reason. -/
theorem Program.ofTokens_unplaced (tokens : List (Located Token)) :
    Program.ofTokens (tokens.map Located.unplaced) =
      match Program.ofTokens tokens with
      | .ok parsed => .ok parsed.unplaced
      | .error stop => .error (stop.map ParseError.located) := by
  have hlast : nowhere = (tokens.map Located.unplaced).head?.elim nowhere (·.location) := by
    cases tokens <;> rfl
  have hrun : Parser.program
      ⟨tokens.map Located.unplaced, tokens.length, nowhere, .initial, globalScope, none, []⟩ = _ :=
    Parser.Forgets.program
      ⟨tokens, tokens.length, tokens.head?.elim nowhere (·.location), .initial, globalScope, none, []⟩
  rw [ofTokens_eq hlast, ofTokens_eq rfl, List.length_map, hrun]
  cases Parser.program ⟨tokens, tokens.length, tokens.head?.elim nowhere (·.location), .initial,
    globalScope, none, []⟩ <;> rfl

end AccumulatorC
