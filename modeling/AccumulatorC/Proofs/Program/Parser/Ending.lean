import AccumulatorC.Proofs.Program.Parser.Descent

/-!
# Where reading without a bound on the tokens ends

From every state the rules of the language end, with what they give when the number of tokens bounds
them: between two calls of the same rule a token is taken, or the grammar has been descended. So a
depth of sixteen is enough for each token to come, and a rank for the calls up to the next token: the
rank of a rule is above those of the rules that it calls before it takes a token. The inductions are
on the number of tokens to come and, for operators, on the levels below.
-/

namespace AccumulatorC

open AccumulatorC.Parser (Ensures Leaves Proceeds)

namespace Descent

variable {α β : Type}

/-- A rule calls others one deeper than itself. -/
theorem exists_deeper {need depth : Nat} (h : need < depth) :
    ∃ rest, depth = rest + 1 ∧ need ≤ rest :=
  ⟨depth - 1, by omega, by omega⟩

/-- From every state with so few tokens to come, a run ends with what a parser gives. -/
def EndsWithin (size : Nat) (run : Descent α) (parser : Parser α) : Prop :=
  ∀ state : ParseState, state.tokens.length ≤ size → state.tokens.length ≤ state.bound →
    run state = some (parser state)

/-- A rule ends from states with at most so many tokens to come, when it is run deep enough: more than
sixteen calls deep for each of them and as deep as its rank. -/
def EndsUpTo (most rank : Nat) (rule : Nat → Descent α) (parser : Parser α) : Prop :=
  ∀ size depth, size ≤ most → 16 * size + rank < depth → EndsWithin size (rule depth) parser

namespace EndsWithin

/-! ## Rules -/

section Rules

variable {size : Nat} {run : Descent α} {parser : Parser α} {runSecond : α → Descent β}
  {second : α → Parser β}

theorem weaken (h : EndsWithin size run parser) {less : Nat} (hless : less ≤ size) :
    EndsWithin less run parser := fun state hsize =>
  h state (Nat.le_trans hsize hless)

/-- What always ends does. -/
theorem lift (parser : Parser α) : EndsWithin size (liftM parser) parser := fun _ _ _ => rfl

theorem pure (value : α) : EndsWithin size (Pure.pure value) (Pure.pure value) := fun _ _ _ => rfl

/-- The second run begins with the tokens that the first one leaves, which what it gives may tell. -/
theorem bindLeaving {least : α → Nat} (h : EndsWithin size run parser)
    (hproceeds : ∀ state, Ensures parser state fun value after => Leaves (least value) state after)
    (hsecond : ∀ value, least value ≤ size →
      EndsWithin (size - least value) (runSecond value) (second value)) :
    EndsWithin size (run >>= runSecond) (parser >>= second) := by
  intro state hsize hbound
  have hrun := h state hsize hbound
  have hleaves := hproceeds state
  simp only [Bind.bind, StateT.bind, ExceptT.bind, ExceptT.mk, Option.bind, ExceptT.bindCont,
    Except.bind, hrun]
  cases hfirst : parser state with
  | error stop => rfl
  | ok done =>
      obtain ⟨value, after⟩ := done
      have hafter := hleaves value after hfirst
      have hlength := hafter.length_le
      exact hsecond value (by omega) after (by omega) (by rw [hafter.bound]; omega)

theorem bind (h : EndsWithin size run parser) (hproceeds : Proceeds 0 parser)
    (hsecond : ∀ value, EndsWithin size (runSecond value) (second value)) :
    EndsWithin size (run >>= runSecond) (parser >>= second) :=
  h.bindLeaving hproceeds fun value _ => hsecond value

/-- A token is taken first, so there is one. -/
theorem andThen (h : EndsWithin size run parser) (hproceeds : Proceeds 1 parser)
    (hsecond : 1 ≤ size → ∀ value, EndsWithin (size - 1) (runSecond value) (second value)) :
    EndsWithin size (run >>= runSecond) (parser >>= second) :=
  h.bindLeaving hproceeds fun value hsize => hsecond hsize value

theorem map (f : α → β) (h : EndsWithin size run parser) :
    EndsWithin size (f <$> run) (f <$> parser) := by
  intro state hsize hbound
  have hrun := h state hsize hbound
  simp only [Functor.map, StateT.map, Bind.bind, ExceptT.bind, ExceptT.mk, Option.bind,
    ExceptT.bindCont, Except.bind, hrun]
  cases parser state <;> rfl

/-- A parser that ends, and then a run. -/
theorem liftBind (hproceeds : Proceeds 0 parser)
    (hsecond : ∀ value, EndsWithin size (runSecond value) (second value)) :
    EndsWithin size (liftM parser >>= runSecond) (parser >>= second) :=
  (lift parser).bind hproceeds hsecond

/-- The same when the parser takes a token. -/
theorem liftTaking (hproceeds : Proceeds 1 parser)
    (hsecond : 1 ≤ size → ∀ value, EndsWithin (size - 1) (runSecond value) (second value)) :
    EndsWithin size (liftM parser >>= runSecond) (parser >>= second) :=
  (lift parser).andThen hproceeds hsecond

theorem ite {c : Prop} [Decidable c] {runYes runNo : Descent α} {yes no : Parser α}
    (hyes : EndsWithin size runYes yes) (hno : EndsWithin size runNo no) :
    EndsWithin size (if c then runYes else runNo) (if c then yes else no) := by
  split
  · exact hyes
  · exact hno

/-- A run that goes on by whether a token comes next. -/
theorem ifOptional {token : Token} {runYes runNo : Descent α} {yes no : Parser α}
    (hyes : 1 ≤ size → EndsWithin (size - 1) runYes yes) (hno : EndsWithin size runNo no) :
    EndsWithin size (do if ← Parser.optional token then runYes else runNo)
      (do if ← Parser.optional token then yes else no) := by
  refine (lift _).bindLeaving (Proceeds.ensures_optional token) fun found hsize => ?_
  cases found with
  | true => exact hyes hsize
  | false => exact hno

/-- A parser that only some conditions call for, and the run that follows in any case. -/
theorem ifThen {c : Prop} [Decidable c] {runRest : Descent β} {rest : Parser β}
    (h : Proceeds 0 parser) (hrest : EndsWithin size runRest rest) :
    EndsWithin size (if c then liftM parser >>= fun _ => runRest else runRest)
      (if c then parser >>= fun _ => rest else rest) :=
  ite (liftBind h fun _ => hrest) hrest

/-- A repetition is bounded by the number of tokens. -/
theorem bounded {second : Nat → Parser α}
    (h : ∀ count, EndsWithin (min size count) run (second count)) :
    EndsWithin size run (Parser.bound >>= second) := fun state hsize hbound =>
  h state.bound state (Nat.le_min.mpr ⟨hsize, hbound⟩) hbound

end Rules

/-- Without tokens to come. -/
theorem ofNone {run : Descent α} {parser : Parser α}
    (h : ∀ bound last scopes scope result warnings,
      run ⟨[], bound, last, scopes, scope, result, warnings⟩ =
        some (parser ⟨[], bound, last, scopes, scope, result, warnings⟩)) :
    EndsWithin 0 run parser := by
  rintro ⟨tokens, bound, last, scopes, scope, result, warnings⟩ hsize _
  obtain rfl : tokens = [] := List.eq_nil_of_length_eq_zero (Nat.le_zero.mp hsize)
  exact h bound last scopes scope result warnings

end EndsWithin

/-! ## Without tokens -/

/-- A run that fails without tokens to come. -/
def Starves (run : Descent α) : Prop :=
  ∀ state : ParseState, state.tokens = [] →
    run state = some (.error (.diagnosis ⟨.unexpectedEnd, state.last⟩))

namespace Starves

/-- A run that starves ends with the error that the source has ended. -/
theorem endsWithin {run : Descent α} (h : Starves run) :
    EndsWithin 0 run (Parser.fail .unexpectedEnd) := .ofNone fun _ _ _ _ _ _ => h _ rfl

/-- A run that begins with one that starves does so too. -/
theorem bind {run : Descent α} {second : α → Descent β} (h : Starves run) :
    Starves (run >>= second) := by
  intro state hnone
  have hrun := h state hnone
  simp only [Bind.bind, StateT.bind, ExceptT.bind, ExceptT.mk, Option.bind, ExceptT.bindCont, hrun]
  rfl

theorem next : Starves (liftM Parser.next) := by
  rintro ⟨tokens, _, _, _, _, _, _⟩ rfl
  rfl

theorem peek {second : Option Token → Descent β} (h : Starves (second none)) :
    Starves (liftM Parser.peek >>= second) := by
  rintro ⟨tokens, _, _, _, _, _, _⟩ rfl
  exact h _ rfl

theorem peekLocation {second : Location → Descent β} (h : ∀ start, Starves (second start)) :
    Starves (liftM Parser.peekLocation >>= second) := fun state hnone =>
  h _ state hnone

theorem optional {token : Token} {second : Bool → Descent β} (h : Starves (second false)) :
    Starves (liftM (Parser.optional token) >>= second) := by
  rintro ⟨tokens, _, _, _, _, _, _⟩ rfl
  exact h _ rfl

theorem primary {depth : Nat} (hdepth : 0 < depth) : Starves (Descent.primary depth) := by
  obtain ⟨depth, rfl, -⟩ := exists_deeper hdepth
  rw [Descent.primary]
  exact next.bind

theorem trailing {depth : Nat} (hdepth : 1 < depth) : Starves (Descent.trailing depth) := by
  obtain ⟨depth, rfl, hless⟩ := exists_deeper hdepth
  rw [Descent.trailing]
  exact peekLocation fun _ => (primary hless).bind

theorem leading {depth : Nat} (hdepth : 2 < depth) : Starves (Descent.leading depth) := by
  obtain ⟨depth, rfl, hless⟩ := exists_deeper hdepth
  rw [Descent.leading]
  exact peekLocation fun _ => peek (trailing hless)

/-- The levels of operators starve at a depth of one more for each. -/
theorem level {depth : Nat} {levels : List (List (Mark × BinaryOp))}
    (hdepth : levels.length + 3 < depth) : Starves (Descent.level depth levels) := by
  induction levels generalizing depth with
  | nil =>
      obtain ⟨depth, rfl, hless⟩ := exists_deeper hdepth
      rw [Descent.level]
      exact leading hless
  | cons operators tighter ih =>
      obtain ⟨depth, rfl, hless⟩ := exists_deeper hdepth
      rw [Descent.level]
      exact peekLocation fun _ => (ih hless).bind

/-- An expression needs at least one token. -/
theorem expression {depth : Nat} (hdepth : 10 < depth) : Starves (Descent.expression depth) := by
  obtain ⟨depth, rfl, hless⟩ := exists_deeper hdepth
  rw [Descent.expression]
  exact peekLocation fun _ => (level hless).bind

theorem arguments {depth : Nat} (hdepth : 11 < depth) : Starves (Descent.arguments depth) := by
  obtain ⟨depth, rfl, hless⟩ := exists_deeper hdepth
  rw [Descent.arguments]
  exact (expression hless).bind

theorem parameters (scope : ScopeId) {depth : Nat} (hdepth : 0 < depth) :
    Starves (Descent.parameters scope depth) := by
  obtain ⟨depth, rfl, -⟩ := exists_deeper hdepth
  have htype : Starves (Descent.type depth) := next.bind
  have hparameter : Starves (Descent.parameter depth scope) := htype.bind
  rw [Descent.parameters]
  exact hparameter.bind

/-- So does a statement. -/
theorem statement {depth : Nat} (hdepth : 11 < depth) : Starves (Descent.statement depth) := by
  obtain ⟨depth, rfl, hless⟩ := exists_deeper hdepth
  rw [Descent.statement]
  exact peek (expression hless).bind

theorem blockRest {depth : Nat} (hdepth : 12 < depth) : Starves (Descent.blockRest depth) := by
  obtain ⟨depth, rfl, hless⟩ := exists_deeper hdepth
  rw [Descent.blockRest]
  exact optional (peek (statement hless).bind)

end Starves

/-! ## Types and expressions -/

namespace EndsWithin

theorem stars {size count depth : Nat} (hcount : size ≤ count) (hdepth : 16 * size < depth)
    (type : Ty) : EndsWithin size (Descent.stars depth type) (Parser.stars count type) := by
  induction count generalizing size depth type with
  | zero =>
      obtain ⟨depth, rfl, -⟩ := exists_deeper hdepth
      obtain rfl : size = 0 := Nat.le_zero.mp hcount
      exact ofNone fun _ _ _ _ _ _ => rfl
  | succ count ih =>
      obtain ⟨depth, rfl, hless⟩ := exists_deeper hdepth
      rw [Descent.stars]
      exact ifOptional (fun _ => ih (by omega) (by omega) _) (pure _)

theorem type {size depth : Nat} (hdepth : 16 * size ≤ depth) :
    EndsWithin size (Descent.type depth) Parser.type := by
  refine liftTaking Proceeds.next fun hsize token => ?_
  obtain ⟨token, location⟩ := token
  have hstars : ∀ base : Ty, EndsWithin (size - 1) (Descent.stars depth base)
      (do Parser.stars (← Parser.bound) base) := fun base =>
    bounded fun count => stars (Nat.min_le_right _ count) (by omega) base
  cases token with
  | keyword word => cases word <;> first | exact hstars _ | exact lift _
  | _ => exact lift _

/-- Each trailing step takes a token, so there are no more of them than tokens. -/
theorem trailingSteps {size count depth : Nat} (hcount : size ≤ count)
    (hdepth : 16 * size < depth) (start : Location) (operand : Expr) :
    EndsWithin size (Descent.trailingSteps start depth operand)
      (Parser.trailingSteps start count operand) := by
  induction count generalizing size depth operand with
  | zero =>
      obtain ⟨depth, rfl, -⟩ := exists_deeper hdepth
      obtain rfl : size = 0 := Nat.le_zero.mp hcount
      exact ofNone fun _ _ _ _ _ _ => rfl
  | succ count ih =>
      obtain ⟨depth, rfl, hless⟩ := exists_deeper hdepth
      rw [Descent.trailingSteps]
      refine liftBind Proceeds.peek fun found => ?_
      cases Parser.trailingStep? found with
      | some step =>
          refine liftTaking Proceeds.next fun _ _ => liftBind Proceeds.scope fun _ => ?_
          exact liftBind Proceeds.last fun _ => liftBind (Proceeds.built _) fun whole =>
            ih (by omega) (by omega) whole
      | none => exact pure operand

section Expressions

variable {most size depth : Nat} {nested operand : Parser Expr}

theorem operatorTail {operators : List (Mark × BinaryOp)}
    {tighter : List (List (Mark × BinaryOp))} (htighter : tighter.length ≤ 6)
    (h : EndsUpTo most (tighter.length + 3) (Descent.level · tighter) operand)
    (hproceeds : Proceeds 1 operand) {count : Nat} (hmost : size ≤ most) (hcount : size ≤ count)
    (hdepth : 16 * size < depth) (start : Location) (left : Expr) :
    EndsWithin size (Descent.operatorTail depth operators tighter start left)
      (Parser.operatorTail operand operators start count left) := by
  induction count generalizing size depth left with
  | zero =>
      obtain ⟨depth, rfl, -⟩ := exists_deeper hdepth
      obtain rfl : size = 0 := Nat.le_zero.mp hcount
      rw [Descent.operatorTail]
      exact ofNone fun _ _ _ _ _ _ => rfl
  | succ count ih =>
      obtain ⟨depth, rfl, hless⟩ := exists_deeper hdepth
      rw [Descent.operatorTail]
      refine liftBind Proceeds.peek fun found => ?_
      cases operator? operators found with
      | some op =>
          refine liftTaking Proceeds.next fun hsize _ => ?_
          -- The operator is taken, and its token makes up for the levels that are begun again.
          have hright := h (size - 1) depth (by omega) (by omega)
          refine hright.bind hproceeds.uncounted fun right => ?_
          exact liftBind Proceeds.scope fun _ => liftBind Proceeds.last fun _ =>
            liftBind (Proceeds.built _) fun whole =>
              ih (by omega) (by omega) (by omega) whole
      | none => exact pure left

/-- The levels of operators over an operand, the loosest one first. -/
theorem level (h : EndsUpTo most 2 Descent.leading operand) (hproceeds : Proceeds 1 operand)
    {levels : List (List (Mark × BinaryOp))} (hlevels : levels.length ≤ 6) :
    EndsUpTo most (levels.length + 3) (Descent.level · levels)
      (levels.reverse.foldl Parser.operatorLevel operand) := by
  induction levels with
  | nil =>
      intro size depth hmost hdepth
      obtain ⟨depth, rfl, hless⟩ := exists_deeper hdepth
      dsimp only
      rw [Descent.level]
      exact h size depth hmost hless
  | cons operators tighter ih =>
      intro size depth hmost hdepth
      obtain ⟨depth, rfl, hless⟩ := exists_deeper hdepth
      rw [List.length_cons] at hlevels hless
      have hbelow := ih (Nat.le_of_succ_le hlevels)
      have htighter := Proceeds.levels hproceeds tighter.reverse
      dsimp only
      rw [Descent.level, List.reverse_cons, List.foldl_append]
      refine liftBind Proceeds.peekLocation fun start => ?_
      -- No token is taken before the first operand, so it is the rank that falls.
      refine (hbelow size depth hmost (by omega)).andThen htighter fun hsize left => ?_
      exact bounded fun count => operatorTail (Nat.le_of_succ_le hlevels) hbelow htighter
        (by omega) (Nat.min_le_right _ _) (by omega) start left

variable (h : EndsUpTo most 10 Descent.expression nested) (hproceeds : Proceeds 1 nested)
include h hproceeds

theorem arguments {count : Nat} (hmost : size ≤ most) (hcount : size ≤ count)
    (hdepth : 16 * size + 11 < depth) :
    EndsWithin size (Descent.arguments depth) (Parser.separated nested count) := by
  induction count generalizing size depth with
  | zero =>
      obtain rfl : size = 0 := Nat.le_zero.mp hcount
      exact (Starves.arguments (by omega)).endsWithin
  | succ count ih =>
      obtain ⟨depth, rfl, hless⟩ := exists_deeper hdepth
      rw [Descent.arguments]
      refine (h size depth hmost (by omega)).andThen hproceeds fun hsize first => ?_
      refine liftBind (Proceeds.optional _) fun _ => ite ?_ (pure [first])
      have hrest := (Proceeds.separated hproceeds count).uncounted
      exact (ih (by omega) (by omega) (by omega)).bind hrest fun rest => pure (first :: rest)

theorem call (hmost : size ≤ most + 1) (hdepth : 16 * size < depth) (name : String)
    (start : Location) : EndsWithin size (Descent.call depth name start)
      (Parser.call nested name start) := by
  obtain ⟨depth, rfl, hless⟩ := exists_deeper hdepth
  rw [Descent.call]
  refine liftBind (Proceeds.resolve name start) fun function => ?_
  dsimp only
  cases function.type with
  | function result parameters =>
      have hrest : ∀ list : List Expr, EndsWithin (size - 1)
          (do Parser.built (Expr.called (← Parser.scope) (.span start (← Parser.last)) function
            result parameters list))
          (do Parser.built (Expr.called (← Parser.scope) (.span start (← Parser.last)) function
            result parameters list)) := fun _ =>
        liftBind Proceeds.scope fun _ => liftBind Proceeds.last fun _ => lift _
      refine liftTaking (Proceeds.expect _) fun hsize _ => ?_
      refine liftBind (Proceeds.optional _) fun _ => ite (hrest []) (bounded fun count => ?_)
      have hlist : EndsWithin (min (size - 1) count) (Descent.arguments depth)
          (Parser.separated nested count) :=
        arguments h hproceeds (by omega) (Nat.min_le_right _ count) (by omega)
      refine hlist.bind (Proceeds.separated hproceeds count).uncounted fun list => ?_
      exact liftBind (Proceeds.expect _).uncounted fun _ =>
        (hrest list).weaken (Nat.min_le_left _ count)
  | _ => exact lift _

theorem primary : EndsUpTo (most + 1) 0 Descent.primary (Parser.primary nested) := by
  intro size depth hmost hdepth
  obtain ⟨depth, rfl, hless⟩ := exists_deeper hdepth
  rw [Descent.primary]
  refine liftTaking Proceeds.next fun hsize token => ?_
  obtain ⟨token, location⟩ := token
  cases token with
  | identifier name =>
      exact liftBind Proceeds.peek fun _ =>
        ite (call h hproceeds (by omega) (by omega) name location) (lift _)
  | mark m =>
      cases m with
      | openParen =>
          have hinner := h (size - 1) depth (by omega) (by omega)
          refine hinner.bind hproceeds.uncounted fun inner => ?_
          exact liftBind (Proceeds.expect _).uncounted fun _ => pure inner
      | _ => exact lift (Parser.fail .expectedExpression)
  | _ => exact lift _

theorem trailing : EndsUpTo (most + 1) 1 Descent.trailing (Parser.trailing nested) := by
  intro size depth hmost hdepth
  obtain ⟨depth, rfl, hless⟩ := exists_deeper hdepth
  rw [Descent.trailing]
  refine liftBind Proceeds.peekLocation fun start => ?_
  have hoperand := primary h hproceeds size depth hmost hless
  refine hoperand.andThen (Proceeds.primary hproceeds) fun hsize operand => ?_
  exact bounded fun count => trailingSteps (Nat.min_le_right _ _) (by omega) start operand

theorem leading {count : Nat} (hcount : count ≤ most + 1) :
    EndsUpTo count 2 Descent.leading (Parser.leading nested count) := by
  induction count with
  | zero =>
      intro size depth hsize hdepth
      obtain rfl : size = 0 := Nat.le_zero.mp hsize
      exact (Starves.leading (by omega)).endsWithin
  | succ count ih =>
      intro size depth hsize hdepth
      obtain ⟨depth, rfl, hless⟩ := exists_deeper hdepth
      rw [Descent.leading]
      refine liftBind Proceeds.peekLocation fun start => liftBind Proceeds.peek fun found => ?_
      cases operator? leadingOperators found with
      | some op =>
          have hoperand := (Proceeds.leading hproceeds count).uncounted
          refine liftTaking Proceeds.next fun _ _ => ?_
          exact (ih (by omega) _ _ (by omega) (by omega)).bind hoperand fun operand => lift _
      | none => exact trailing h hproceeds size depth (by omega) hless

end Expressions

theorem expressionWithin (count : Nat) :
    EndsUpTo count 10 Descent.expression (Parser.expressionWithin count) := by
  induction count with
  | zero =>
      intro size depth hsize hdepth
      obtain rfl : size = 0 := Nat.le_zero.mp hsize
      exact (Starves.expression (by omega)).endsWithin
  | succ count ih =>
      intro size depth hsize hdepth
      obtain ⟨depth, rfl, hless⟩ := exists_deeper hdepth
      have hnested := Proceeds.expressionWithin count
      have hoperand := Proceeds.leading hnested (count + 1)
      have hsix : operatorLevels.reverse.length = 6 := rfl
      have hlevels := level (leading ih hnested (Nat.le_refl _)) hoperand (Nat.le_of_eq hsix)
        size depth hsize (by omega)
      rw [List.reverse_reverse] at hlevels
      have hproceeds := Proceeds.levels hoperand operatorLevels
      rw [Descent.expression]
      refine liftBind Proceeds.peekLocation fun start => ?_
      refine hlevels.andThen hproceeds fun _ target => ?_
      refine liftBind (Proceeds.optional _) fun _ => ite ?_ (pure target)
      have hvalue := ih (size - 1) depth (by omega) (by omega)
      refine hvalue.bind hnested.uncounted fun value => ?_
      exact liftBind Proceeds.scope fun _ => liftBind Proceeds.last fun _ => lift _

theorem expression {size depth : Nat} (hdepth : 16 * size + 10 < depth) :
    EndsWithin size (Descent.expression depth) Parser.expression :=
  bounded fun count => expressionWithin count _ _ (Nat.min_le_right size count) (by omega)

/-! ## Statements -/

theorem initialValue {size depth : Nat} (hdepth : 16 * size + 10 < depth) (external : Bool)
    (type : Ty) (name : Located String) :
    EndsWithin size (Descent.initialValue depth external type name)
      (Parser.initialValue external type name) := by
  refine (expression hdepth).bind Proceeds.expression.uncounted fun value => ?_
  refine ifThen Proceeds.fail (liftBind (Proceeds.bindValue type value) fun _ => ?_)
  exact liftBind Proceeds.scope fun _ => ifThen Proceeds.failAt (pure value)

/-- A declaration ends within sixteen calls for each token. -/
theorem declaration {size depth : Nat} (hdepth : 16 * size ≤ depth) :
    EndsWithin size (Descent.declaration depth) Parser.declaration := by
  refine liftBind (Proceeds.optional _) fun external => ?_
  refine (type hdepth).andThen Proceeds.type fun hsize type => ?_
  refine liftBind Proceeds.identifier.uncounted fun name => ?_
  have hdeclare : ∀ initial : Option Expr, EndsWithin (size - 1)
      (do return (⟨← Parser.declare (← Parser.scope) name type external, initial⟩ : Declaration))
      (do return (⟨← Parser.declare (← Parser.scope) name type external, initial⟩ : Declaration)) :=
    fun _ => liftBind Proceeds.scope fun _ => liftBind (Proceeds.declare _ _ _ _) fun _ => pure _
  refine ifThen (Proceeds.requireVariable type name) ?_
  refine liftBind (Proceeds.optional _) fun _ => ite ?_ (hdeclare none)
  have hinitial : EndsWithin (size - 1) (Descent.initialValue depth external type name)
      (Parser.initialValue external type name) := initialValue (by omega) external type name
  have hproceeds := (Proceeds.initialValue external type name).uncounted
  exact (hinitial.map some).bind hproceeds.map hdeclare

theorem condition {size depth : Nat} (hdepth : 16 * size ≤ depth) :
    EndsWithin size (Descent.condition depth) Parser.condition := by
  refine liftTaking (Proceeds.expect _) fun hsize _ => ?_
  have hvalue : EndsWithin (size - 1) (Descent.expression depth) Parser.expression :=
    expression (by omega)
  refine hvalue.bind Proceeds.expression.uncounted fun value => ?_
  refine liftBind (Proceeds.expect _).uncounted fun _ => ?_
  exact liftBind (Proceeds.checked _) fun _ => pure value

theorem returnedValue {size depth : Nat} (hdepth : 16 * size + 10 < depth) :
    EndsWithin size (Descent.returnedValue depth) Parser.returnedValue := by
  refine liftBind Proceeds.get fun state => liftBind (Proceeds.optional _) fun _ => ite ?_ ?_
  · exact ifThen Proceeds.fail (pure none)
  · refine (expression hdepth).bind Proceeds.expression.uncounted fun value => ?_
    refine liftBind (Proceeds.expect _).uncounted fun _ => ifThen Proceeds.failAt ?_
    exact liftBind (Proceeds.bindValue _ value) fun _ => pure (some value)

/-- An expression statement ends as its expression does. -/
theorem expressionStatement {size depth : Nat} (hdepth : 16 * size + 10 < depth) :
    EndsWithin size (Descent.expressionStatement depth) Parser.expressionStatement := by
  refine (expression hdepth).bind Proceeds.expression.uncounted fun value => ?_
  refine liftBind (Proceeds.expect _).uncounted fun _ => ?_
  exact ifThen (Proceeds.checked _) (pure (Statement.expression value))

section Blocks

variable {most : Nat} {statement : Parser Statement}
  (h : EndsUpTo most 11 Descent.statement statement) (hproceeds : Proceeds 1 statement)
include h hproceeds

theorem blockRest {size count depth : Nat} (hmost : size ≤ most) (hcount : size ≤ count)
    (hdepth : 16 * size + 12 < depth) :
    EndsWithin size (Descent.blockRest depth) (Parser.blockRest statement count) := by
  induction count generalizing size depth with
  | zero =>
      obtain rfl : size = 0 := Nat.le_zero.mp hcount
      exact (Starves.blockRest (by omega)).endsWithin
  | succ count ih =>
      obtain ⟨depth, rfl, hless⟩ := exists_deeper hdepth
      have hlater := (Proceeds.blockRest hproceeds count).uncounted
      have hrest : 1 ≤ size → ∀ first : Statement, EndsWithin (size - 1)
          (do return first :: (← Descent.blockRest depth))
          (do return first :: (← Parser.blockRest statement count)) := fun hsize first =>
        (ih (by omega) (by omega) (by omega)).bind hlater fun rest => pure (first :: rest)
      rw [Descent.blockRest]
      refine liftBind (Proceeds.optional _) fun _ => ite (pure []) ?_
      refine liftBind Proceeds.peek fun _ => ite ?_ ?_
      · have hdeclaration : EndsWithin size (Descent.declaration depth) Parser.declaration :=
          declaration (by omega)
        refine hdeclaration.andThen Proceeds.declaration fun hsize declared => ?_
        exact liftBind (Proceeds.expect _).uncounted fun _ =>
          hrest hsize (.declaration declared)
      · exact (h size depth hmost (by omega)).andThen hproceeds hrest

/-- Where statements end with one token less, so do blocks, whose brace takes one. -/
theorem block : EndsUpTo (most + 1) 0 Descent.block (Parser.block statement) := by
  intro size depth hmost hdepth
  obtain ⟨depth, rfl, hless⟩ := exists_deeper hdepth
  rw [Descent.block]
  refine liftTaking (Proceeds.expect _) fun hsize _ => liftBind Proceeds.last fun start => ?_
  refine liftBind Proceeds.scope fun outer => liftBind Proceeds.withScopes fun inner => ?_
  refine (lift _).bind (Proceeds.moveTo inner) fun _ => bounded fun count => ?_
  have hrest : EndsWithin (min (size - 1) count) (Descent.blockRest depth)
      (Parser.blockRest statement count) :=
    blockRest h hproceeds (by omega) (Nat.min_le_right _ count) (by omega)
  refine hrest.bind (Proceeds.blockRest hproceeds count).uncounted fun body => ?_
  exact (lift _).bind (Proceeds.moveTo outer) fun _ => liftBind Proceeds.last fun _ => pure _

end Blocks

/-- Statements end, by induction on the tokens to come. -/
theorem statementWithin (count : Nat) :
    EndsUpTo count 11 Descent.statement (Parser.statementWithin count) := by
  induction count with
  | zero =>
      intro size depth hsize hdepth
      obtain rfl : size = 0 := Nat.le_zero.mp hsize
      exact (Starves.statement (by omega)).endsWithin
  | succ count ih =>
      intro size depth hsize hdepth
      obtain ⟨depth, rfl, hless⟩ := exists_deeper hdepth
      have hproceeds := Proceeds.statementWithin count
      have hother := expressionStatement hless
      -- What follows a keyword has a token less.
      have hbelow := hproceeds.uncounted
      have hnested : 1 ≤ size → EndsWithin (size - 1) (Descent.statement depth)
          (Parser.statementWithin count) := fun _ => ih _ _ (by omega) (by omega)
      have hcondition : 1 ≤ size → EndsWithin (size - 1) (Descent.condition depth)
          Parser.condition := fun _ => condition (by omega)
      have hchecked := Proceeds.condition.uncounted
      rw [Descent.statement]
      refine liftBind Proceeds.peek fun found => ?_
      cases found with
      | none => exact hother
      | some token =>
          cases token with
          | keyword word =>
              cases word with
              | returning =>
                  refine liftTaking (Proceeds.expect _) fun hone _ => ?_
                  refine liftBind Proceeds.last fun _ => ?_
                  have hvalue : EndsWithin (size - 1) (Descent.returnedValue depth)
                      Parser.returnedValue := returnedValue (by omega)
                  refine hvalue.bind Proceeds.returnedValue fun _ => ?_
                  exact liftBind Proceeds.scope fun _ => pure _
              | ifThen =>
                  refine liftTaking (Proceeds.expect _) fun hone _ => ?_
                  refine liftBind Proceeds.last fun _ => (hcondition hone).bind hchecked fun _ => ?_
                  refine (hnested hone).bind hbelow fun _ => ?_
                  refine liftBind (Proceeds.optional _) fun _ => ite ?_ (pure _)
                  exact (hnested hone).bind hbelow fun _ => pure _
              | whileLoop =>
                  refine liftTaking (Proceeds.expect _) fun hone _ => ?_
                  refine liftBind Proceeds.last fun _ => (hcondition hone).bind hchecked fun _ => ?_
                  exact (hnested hone).bind hbelow fun _ => pure _
              | _ => exact hother
          | mark m =>
              cases m with
              | openBrace =>
                  have hblock := (Proceeds.block hproceeds).uncounted
                  exact (block ih hproceeds size depth hsize (by omega)).bind hblock fun _ => pure _
              | _ => exact hother
          | _ => exact hother

theorem statement (most : Nat) : EndsUpTo most 11 Descent.statement Parser.statement :=
  fun _ _ _ _ => bounded fun count =>
    statementWithin count _ _ (Nat.min_le_right _ count) (by omega)

/-! ## Programs -/

theorem parameter {size depth : Nat} (hdepth : 16 * size ≤ depth) (scope : ScopeId) :
    EndsWithin size (Descent.parameter depth scope) (Parser.parameter scope) := by
  refine (type hdepth).bind Proceeds.type.uncounted fun type => ?_
  refine liftBind Proceeds.identifier.uncounted fun name => ?_
  refine liftBind (Proceeds.requireVariable type name) fun _ => ?_
  exact liftBind (Proceeds.declare _ _ _ _) fun _ => pure type

theorem parameters {size count depth : Nat} (hcount : size ≤ count) (hdepth : 16 * size < depth)
    (scope : ScopeId) : EndsWithin size (Descent.parameters scope depth)
      (Parser.separated (Parser.parameter scope) count) := by
  induction count generalizing size depth with
  | zero =>
      obtain rfl : size = 0 := Nat.le_zero.mp hcount
      exact (Starves.parameters scope hdepth).endsWithin
  | succ count ih =>
      obtain ⟨depth, rfl, hless⟩ := exists_deeper hdepth
      rw [Descent.parameters]
      refine (parameter hless scope).andThen (Proceeds.parameter scope) fun hsize first => ?_
      refine liftBind (Proceeds.optional _) fun _ => ite ?_ (pure [first])
      have hrest := (Proceeds.separated (Proceeds.parameter scope) count).uncounted
      exact (ih (by omega) (by omega)).bind hrest fun rest => pure (first :: rest)

/-- The body of a function ends, or the semicolon that stands for it. -/
theorem functionRest {size depth : Nat} (hdepth : 16 * size < depth) (result : Ty)
    (name : Located String) (scope : ScopeId) (parameters : List Ty) :
    EndsWithin size (Descent.functionRest depth result name scope parameters)
      (Parser.functionRest result name scope parameters) := by
  refine liftBind (Proceeds.expect _).uncounted fun _ => ?_
  refine liftBind Proceeds.withScopes fun _ => liftBind (Proceeds.declare _ _ _ _) fun _ => ?_
  refine (lift _).bind (Proceeds.moveInto scope (some result)) fun _ => ?_
  have hblock := block (statement size) Proceeds.statement size depth (Nat.le_succ size) hdepth
  refine hblock.bind (Proceeds.block Proceeds.statement).uncounted fun _ => ?_
  exact (lift _).bind (Proceeds.moveInto globalScope none) fun _ => pure _

/-- A function ends within sixteen calls for each token. -/
theorem function {size depth : Nat} (hdepth : 16 * size ≤ depth) :
    EndsWithin size (Descent.function depth) Parser.function := by
  refine (type hdepth).andThen Proceeds.type fun hsize result => ?_
  refine liftBind Proceeds.identifier.uncounted fun name => ?_
  refine liftBind (Proceeds.expect _).uncounted fun _ => ?_
  refine liftBind Proceeds.withScopes fun scope => liftBind Proceeds.peek fun _ => ?_
  have hrest : ∀ parameters, EndsWithin (size - 1)
      (Descent.functionRest depth result name scope parameters)
      (Parser.functionRest result name scope parameters) :=
    functionRest (by omega) result name scope
  refine ite (hrest []) (bounded fun count => ?_)
  have hproceeds := Proceeds.separated (Proceeds.parameter scope) count
  have hparameters : EndsWithin (min (size - 1) count) (Descent.parameters scope depth)
      (Parser.separated (Parser.parameter scope) count) :=
    parameters (Nat.min_le_right _ count) (by omega) scope
  exact hparameters.bind hproceeds.uncounted fun list =>
    (hrest list).weaken (Nat.min_le_left _ count)

theorem item {size depth : Nat} (hdepth : 16 * size ≤ depth) :
    EndsWithin size (Descent.item depth) Parser.item := by
  refine liftBind Proceeds.get fun state => ite ?_ ?_
  · exact (function hdepth).bind Proceeds.function.uncounted fun _ => pure _
  · refine (declaration hdepth).bind Proceeds.declaration.uncounted fun _ => ?_
    exact liftBind (Proceeds.expect _).uncounted fun _ => pure _

theorem items {size count depth : Nat} (hcount : size ≤ count) (hdepth : 16 * size < depth) :
    EndsWithin size (Descent.items depth) (Parser.items count) := by
  induction count generalizing size depth with
  | zero =>
      obtain ⟨depth, rfl, -⟩ := exists_deeper hdepth
      obtain rfl : size = 0 := Nat.le_zero.mp hcount
      exact ofNone fun _ _ _ _ _ _ => rfl
  | succ count ih =>
      obtain ⟨depth, rfl, hless⟩ := exists_deeper hdepth
      rw [Descent.items]
      refine liftBind Proceeds.peek fun _ => ite (pure []) ?_
      refine (item hless).andThen Proceeds.item fun hsize first => ?_
      exact (ih (by omega) (by omega)).bind (Proceeds.items count) fun rest => pure (first :: rest)

/-- The whole descent ends. -/
theorem program {size depth : Nat} (hdepth : 16 * size < depth) :
    EndsWithin size (Descent.program depth) Parser.program := by
  refine bounded fun count => ?_
  have hitems : EndsWithin (min size count) (Descent.items depth) (Parser.items count) :=
    items (Nat.min_le_right size count) (by omega)
  refine hitems.bind (Proceeds.items count) fun list => liftBind Proceeds.get fun state => ?_
  cases state.scopes.lookup globalScope mainName with
  | ok main => exact ite (pure list) (lift _)
  | error _ => exact lift _

end EndsWithin

end Descent

end AccumulatorC
