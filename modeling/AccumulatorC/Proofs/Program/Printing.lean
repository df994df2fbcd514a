import AccumulatorC.Proofs.Program.Phrase
import AccumulatorC.Proofs.Program.Unplaced
import AccumulatorC.Proofs.Program.WellFormed

/-!
# Programs as they are written

The tree of a program is written back as a source. Expressions keep parentheses around every operand
that has an operator itself. A place that is assigned its neighbouring value is stepped before its
operand, and what goes back from that value is a step after it.
-/

namespace AccumulatorC

/-! ## The source of a program -/

/-- A leading operator on a term. What goes back from a step is the step after its operand. -/
def Term.apply : UnaryOp → Term → Term
  | .decrement, .leading .increment t => .trailing .increment t
  | .increment, .leading .decrement t => .trailing .decrement t
  | op, t => .leading op t

/-- The operator that gives a place its neighbouring value. -/
def Expr.neighbour? : Expr → Option UnaryOp
  | .unary _ op operand => if op.steps && operand.isPlace then some op else none
  | _ => none

mutual

/-- The term that is written for an expression. -/
def Expr.term : Expr → Term
  | .number _ value => .integer value
  | .string _ bytes => .string bytes
  | .name _ symbol => .name symbol.name
  | .assign _ target value =>
      match value.neighbour? with
      | some op => .leading op target.term
      | none => .assign target.term value.term
  | .binary _ op left right => .binary op left.term right.term
  | .unary _ op operand => Term.apply op operand.term
  | .call _ function arguments => .call function.name (Expr.terms arguments)

/-- The terms that are written for expressions. -/
def Expr.terms : List Expr → List Term
  | [] => []
  | e :: rest => e.term :: Expr.terms rest

end

/-- The declaration that is written for a declared variable. -/
def Declaration.variable (d : Declaration) : Variable :=
  ⟨decide (d.symbol.storage = .external), d.symbol.type, d.symbol.name, d.initial.map Expr.term⟩

mutual

/-- The phrase that is written for a statement. -/
def Statement.phrase : Statement → Phrase
  | .declaration d => .declaration d.variable
  | .expression value => .expression value.term
  | .returning value _ _ => .returning (value.map Expr.term)
  | .branch condition yes no _ =>
      match no with
      | some no => .choice condition.term yes.phrase no.phrase
      | none => .branch condition.term yes.phrase
  | .loop condition body _ => .loop condition.term body.phrase
  | .block _ body _ => .block (Statement.phrases body)

/-- The phrases that are written for statements. -/
def Statement.phrases : List Statement → List Phrase
  | [] => []
  | statement :: rest => statement.phrase :: Statement.phrases rest

end

/-- The parameter that is written for a symbol. -/
def Symbol.parameter (symbol : Symbol) : Parameter := ⟨symbol.type, symbol.name⟩

/-- The parameters that a scope declares. -/
def Scopes.parameters (scopes : Scopes) (scope : ScopeId) : List Parameter :=
  (scopes.list[scope]?).elim [] fun table => table.inOrder.map Symbol.parameter

/-- The routine that is written for a function. -/
def Function.routine (scopes : Scopes) (f : Function) : Routine :=
  ⟨f.symbol.result, f.symbol.name, scopes.parameters f.parameters, Statement.phrases f.body⟩

/-- The entry that is written for an item. -/
def Item.entry (scopes : Scopes) : Item → Entry
  | .global d => .global d.variable
  | .function f => .function (f.routine scopes)

/-- The source that is written for a program. -/
def Program.source (program : Program) : List Entry :=
  program.items.map (Item.entry program.scopes)

/-! ## Its tokens -/

/-- The tokens of a type. -/
def Ty.write : Ty → List Token
  | .void => [.keyword .voidType]
  | .char => [.keyword .charType]
  | .int => [.keyword .intType]
  | .pointer base => base.write ++ [.mark .star]
  | .function _ _ => []

/-- The tokens of an expression where it stands alone. -/
def Term.writeAlone (t : Term) : List Token := t.write Term.lavish

/-- The tokens of a declaration, without the semicolon. -/
def Variable.write (declared : Variable) : List Token :=
  externally declared.external (declared.type.write ++ .identifier declared.name ::
    declared.initial.elim [] fun value => .mark .assign :: value.writeAlone)

mutual

/-- The tokens of a phrase. -/
def Phrase.write : Phrase → List Token
  | .declaration declared => declared.write ++ [.mark .semicolon]
  | .expression value => value.writeAlone ++ [.mark .semicolon]
  | .returning value =>
      .keyword .returning :: (value.elim [] Term.writeAlone ++ [.mark .semicolon])
  | .branch condition yes =>
      .keyword .ifThen :: (Term.parenthesized condition.writeAlone ++ yes.write)
  | .choice condition yes no =>
      .keyword .ifThen ::
        (Term.parenthesized condition.writeAlone ++ yes.write ++ .keyword .elseThen :: no.write)
  | .loop condition body =>
      .keyword .whileLoop :: (Term.parenthesized condition.writeAlone ++ body.write)
  | .block body => .mark .openBrace :: (Phrase.writeAll body ++ [.mark .closeBrace])

/-- The tokens of phrases one after the other. -/
def Phrase.writeAll : List Phrase → List Token
  | [] => []
  | phrase :: rest => phrase.write ++ Phrase.writeAll rest

end

/-- The tokens of a parameter. -/
def Parameter.write (parameter : Parameter) : List Token :=
  parameter.type.write ++ [.identifier parameter.name]

/-- The tokens of a routine. -/
def Routine.write (defined : Routine) : List Token :=
  defined.result.write ++ .identifier defined.name ::
    (Term.parenthesized (Term.commaSeparated (defined.parameters.map Parameter.write)) ++
      .mark .openBrace :: (Phrase.writeAll defined.body ++ [.mark .closeBrace]))

/-- The tokens of an entry. -/
def Entry.write : Entry → List Token
  | .global declared => declared.write ++ [.mark .semicolon]
  | .function defined => defined.write

/-- The tokens of a source. -/
def Entry.writeAll (entries : List Entry) : List Token := entries.flatMap Entry.write

/-- The tokens that are written for a program. -/
def Program.print (program : Program) : List Token := Entry.writeAll program.source

/-! ## Places are not written -/

namespace Expr

theorem unplaced_neighbour? (e : Expr) : e.unplaced.neighbour? = e.neighbour? := by
  cases e with
  | unary note op operand => rw [unplaced, neighbour?, neighbour?, unplaced_isPlace]
  | _ => rfl

mutual

/-- Places are not printed. -/
theorem unplaced_term : ∀ e : Expr, e.unplaced.term = e.term
  | .number _ _ => rfl
  | .string _ _ => rfl
  | .name _ _ => rfl
  | .assign _ target value => by
      rw [unplaced, term, term, unplaced_neighbour?, unplaced_term target, unplaced_term value]
  | .binary _ _ left right => by
      rw [unplaced, term, term, unplaced_term left, unplaced_term right]
  | .unary _ _ operand => by rw [unplaced, term, term, unplaced_term operand]
  | .call _ _ arguments => by
      rw [unplaced, term, term, unplaced_terms arguments, Symbol.unplaced_name]

theorem unplaced_terms : ∀ arguments : List Expr, terms (allUnplaced arguments) = terms arguments
  | [] => rfl
  | e :: rest => by rw [allUnplaced, terms, terms, unplaced_term e, unplaced_terms rest]

end

theorem unplaced_written (value : Option Expr) :
    (value.map unplaced).map term = value.map term := by
  cases value with
  | none => rfl
  | some value => rw [Option.map_some, Option.map_some, Option.map_some, unplaced_term]

end Expr

theorem Declaration.unplaced_variable (d : Declaration) : d.unplaced.variable = d.variable := by
  rw [Declaration.variable, Declaration.variable, Declaration.unplaced, Expr.unplaced_written]
  rfl

namespace Statement

mutual

theorem unplaced_phrase : ∀ statement : Statement, statement.unplaced.phrase = statement.phrase
  | .declaration d => by rw [unplaced, phrase, phrase, d.unplaced_variable]
  | .expression value => by rw [unplaced, phrase, phrase, value.unplaced_term]
  | .returning value _ _ => by rw [unplaced, phrase, phrase, Expr.unplaced_written]
  | .branch condition yes none _ => by
      rw [unplaced, phrase, phrase, condition.unplaced_term, unplaced_phrase yes]
  | .branch condition yes (some no) _ => by
      rw [unplaced, phrase, phrase, condition.unplaced_term, unplaced_phrase yes,
        unplaced_phrase no]
  | .loop condition body _ => by
      rw [unplaced, phrase, phrase, condition.unplaced_term, unplaced_phrase body]
  | .block _ body _ => by rw [unplaced, phrase, phrase, unplaced_phrases body]

theorem unplaced_phrases : ∀ body : List Statement, phrases (allUnplaced body) = phrases body
  | [] => rfl
  | statement :: rest => by
      rw [allUnplaced, phrases, phrases, unplaced_phrase statement, unplaced_phrases rest]

end

end Statement

theorem Scopes.unplaced_parameters (scopes : Scopes) (id : ScopeId) :
    scopes.unplaced.parameters id = scopes.parameters id := by
  rw [parameters, parameters, unplaced_list]
  cases scopes.list[id]? with
  | none => rfl
  | some scope => simp [Scope.inOrder, Scope.unplaced, Symbol.parameter, Function.comp_def]

theorem Item.unplaced_entry (scopes : Scopes) (item : Item) :
    item.unplaced.entry scopes.unplaced = item.entry scopes := by
  cases item with
  | global d => rw [Item.unplaced, entry, entry, d.unplaced_variable]
  | function f =>
      rw [Item.unplaced, entry, entry, Function.routine, Function.routine, Function.unplaced,
        scopes.unplaced_parameters, Statement.unplaced_phrases]
      rfl

/-- A program is written without regard to its places. -/
theorem Program.unplaced_print (program : Program) : program.unplaced.print = program.print := by
  rw [print, print, source, source, Program.unplaced, List.map_map]
  exact congrArg Entry.writeAll (List.map_congr_left fun item _ => item.unplaced_entry _)

end AccumulatorC
