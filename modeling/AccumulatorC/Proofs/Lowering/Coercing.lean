import AccumulatorC.Proofs.Lowering.StatementStack

/-!
# Lowering with another coercion

Lowering brings values to the sizes of what they are stored in or combined with. Here is the same
lowering with any other step in the place of the one that does so; the step is told the place of the
conversion as well. With the step of the language it is lowering as it was.
-/

namespace AccumulatorC

open Lowering

/-- A step that brings the value in a register to a size. It is told the place at which the
conversion is noted; those of operands to their common type are not noted. -/
abbrev Coercion := Option Location → Reg → Nat → Lowering Reg

/-! ## Expressions -/

/-- The register of a result, which there must be. -/
def Lowering.required (result : Option Reg) : Lowering Reg :=
  match result with
  | some r => return r
  | none => fail .voidValue

mutual

/-- The value of an expression, where values are brought to other sizes in some way. -/
def Expr.lowerWith (bring : Coercion) (scopes : Scopes) : Expr → Lowering Reg
  | .number note value => (Expr.number note value).lower scopes
  | .string note bytes => (Expr.string note bytes).lower scopes
  | .name note symbol => (Expr.name note symbol).lower scopes
  | .assign note target value => do
      visit note.location
      let r ← value.lowerWith bring scopes
      let r ← bring (some note.location) r target.type.size
      visit target.location
      match target with
      | .name note symbol => store (← scopes.address symbol note.scope) r
      | .unary _ .deref pointer =>
          let pair ← pointer.lowerWith bring scopes
          store (.indirect pair) r
          free pair
      | _ => lift (.error .malformedTree)
      return r
  | .binary note op left right => do
      visit note.location
      let l ← left.lowerWith bring scopes
      let l ← bring none l note.type.size
      let r ← right.lowerWith bring scopes
      let r ← bring none r note.type.size
      operate op note.type.size l r
  | .unary note .plus operand => do
      visit note.location
      operand.lowerWith bring scopes
  | .unary note .negate operand => do
      visit note.location
      negate (← operand.lowerWith bring scopes)
  | .unary note .addressOf operand => do
      visit note.location
      match operand with
      | .name note symbol =>
          let address ← scopes.address symbol note.scope
          let r ← allocate 2
          emit (.setAddress r address)
          return r
      | .unary _ .deref pointer => pointer.lowerWith bring scopes
      | _ => lift (.error .malformedTree)
  | .unary note .deref operand => do
      visit note.location
      let pair ← operand.lowerWith bring scopes
      let r ← allocate note.type.size
      load r (.indirect pair)
      free pair
      return r
  | .unary note .increment operand => do
      visit note.location
      let r ← operand.lowerWith bring scopes
      stepBy .increment r operand.type.stride
      return r
  | .unary note .decrement operand => do
      visit note.location
      let r ← operand.lowerWith bring scopes
      stepBy .decrement r operand.type.stride
      return r
  | .call note function arguments => do
      visit note.location
      let saved ← saveAll
      let pushed ← lowerArgumentsWith bring scopes function.parameters arguments
      required (← finishCall function saved pushed)

/-- Pushes arguments, each brought to the size of its parameter in some way. -/
def lowerArgumentsWith (bring : Coercion) (scopes : Scopes) : List Ty → List Expr → Lowering Nat
  | parameter :: parameters, argument :: arguments => do
      let r ← argument.lowerWith bring scopes
      let r ← bring (some argument.location) r parameter.size
      save r
      let rest ← lowerArgumentsWith bring scopes parameters arguments
      lift (addBytes parameter.size rest)
  | _, _ => return 0

end

/-- A call, whose result need not exist. -/
def lowerCallWith (bring : Coercion) (scopes : Scopes) (function : Symbol) (arguments : List Expr) :
    Lowering (Option Reg) := do
  let saved ← saveAll
  let pushed ← lowerArgumentsWith bring scopes function.parameters arguments
  finishCall function saved pushed

/-! ## Statements -/

namespace Frame

variable (bring : Coercion) (frame : Frame)

/-- Stores the initial value of a local variable. -/
def setInitialWith (declared : Declaration) : Lowering Unit := do
  match declared.initial with
  | none => pure ()
  | some value =>
      let r ← value.lowerWith bring frame.scopes
      let r ← bring (some value.location) r declared.symbol.type.size
      store (← frame.scopes.address declared.symbol value.note.scope) r
      free r

/-- The value of an expression that stands as a statement; a call need not have one. -/
def evaluateWith (value : Expr) : Lowering (Option Reg) :=
  match value with
  | .call note function arguments => do
      visit note.location
      lowerCallWith bring frame.scopes function arguments
  | _ => some <$> value.lowerWith bring frame.scopes

/-- Evaluates an expression for what it does. -/
def discardWith (value : Expr) : Lowering Unit := frame.evaluateWith bring value >>= giveBack

/-- Compares a value with zero. -/
def testWith (condition : Expr) : Lowering Unit := do
  let r ← condition.lowerWith bring frame.scopes
  compareZero r
  free r

/-- Leaves a value where the caller expects it. -/
def leaveResultWith (value : Expr) : Lowering Unit := do
  let r ← value.lowerWith bring frame.scopes
  let r ← bring (some value.location) r frame.resultSize
  if r ≠ .result frame.resultSize then emit (.copy (.result frame.resultSize) r)
  free r

/-- Leaves a value, if there is one, where the caller expects it. -/
def leaveValueWith (value : Option Expr) : Lowering Unit :=
  match value with
  | some value => frame.leaveResultWith bring value
  | none => pure ()

/-- Leaves the function from a scope. -/
def leaveWith (value : Option Expr) (scope : ScopeId) : Lowering Unit :=
  frame.leaveValueWith bring value >>= fun _ => frame.goToEnd scope

end Frame

mutual

/-- Lowers a statement, where values are brought to other sizes in some way. -/
def Statement.lowerWith (bring : Coercion) (frame : Frame) : Statement → Lowering Unit
  | .declaration declared => do
      frame.setInitialWith bring declared
      Frame.settle
  | .expression value => do
      frame.discardWith bring value
      Frame.settle
  | .returning value scope location => do
      visit location
      frame.leaveWith bring value scope
      Frame.settle
  | .branch condition yes no location => do
      visit location
      let n ← newLabel .branch
      frame.testWith bring condition
      emit (.jump .equal (.inner .branch .no n))
      mark (.inner .branch .yes n)
      yes.lowerWith bring frame
      emit (.jump .always (.inner .branch .exit n))
      mark (.inner .branch .no n)
      match no with
      | some no => no.lowerWith bring frame
      | none => pure ()
      mark (.inner .branch .exit n)
      Frame.settle
  | .loop condition body location => do
      visit location
      let n ← newLabel .loop
      mark (.inner .loop .start n)
      frame.testWith bring condition
      emit (.jump .equal (.inner .loop .exit n))
      mark (.inner .loop .contents n)
      body.lowerWith bring frame
      emit (.jump .always (.inner .loop .start n))
      mark (.inner .loop .exit n)
      Frame.settle
  | .block scope body _ => do
      let size ← lift (frame.scopes.frame scope)
      reserve size
      lowerStatementsWith bring frame body
      release size
      Frame.settle

/-- Lowers statements one after the other, where values are brought to other sizes in some way. -/
def lowerStatementsWith (bring : Coercion) (frame : Frame) : List Statement → Lowering Unit
  | [] => pure ()
  | statement :: rest => do
      statement.lowerWith bring frame
      lowerStatementsWith bring frame rest

end

/-! ## Programs -/

/-- A function, in which values are brought to other sizes in some way. -/
def Function.lowerWith (bring : Coercion) (scopes : Scopes) (function : Function) :
    Lowering Unit := do
  visit function.symbol.location
  let size ← lift (scopes.frame function.scope)
  mark (.symbol function.symbol.name)
  reserve size
  lowerStatementsWith bring (function.toFrame scopes) function.body
  mark (.exit function.symbol.name)
  release size
  emit .ret

/-- One item of a program. -/
def Item.lowerWith (bring : Coercion) (scopes : Scopes) : Item → Lowering Unit
  | .global declared => declared.lowerGlobal
  | .function defined => defined.lowerWith bring scopes

/-- A whole program, in which values are brought to other sizes in some way. -/
def Program.lowerWith (bring : Coercion) (program : Program) : Lowering Unit := do
  mark .entry
  emit (.call mainName)
  mark .halt
  emit (.jump .always .halt)
  program.items.forM (Item.lowerWith bring program.scopes)
  mark .heap

/-- The lines of a program in which values are brought to other sizes in some way. -/
def Program.linesWith (bring : Coercion) (program : Program) :
    Except (Stop (Located LowerError)) (List Line) :=
  ((program.lowerWith bring).run .initial).map (·.code)

/-! ## The coercion of the language -/

theorem Expr.lower_call_required (scopes : Scopes) (note : Note) (function : Symbol)
    (arguments : List Expr) :
    (Expr.call note function arguments).lower scopes =
      visit note.location >>= fun _ => lowerCall scopes function arguments >>= required := by
  rw [Expr.lower_call]
  refine bind_congr fun _ => bind_congr fun result => ?_
  cases result <;> rfl

theorem Expr.lowerWith_call (bring : Coercion) (scopes : Scopes) (note : Note) (function : Symbol)
    (arguments : List Expr) :
    (Expr.call note function arguments).lowerWith bring scopes =
      visit note.location >>= fun _ =>
        lowerCallWith bring scopes function arguments >>= required := by
  rw [Expr.lowerWith, lowerCallWith]
  simp only [bind_assoc]

mutual

/-- With the coercion of the language, an expression is lowered as it was. -/
theorem Expr.lowerWith_coerce (scopes : Scopes) :
    ∀ e : Expr, e.lowerWith (fun _ => coerce) scopes = e.lower scopes
  | .number note value => by rw [Expr.lowerWith]
  | .string note bytes => by rw [Expr.lowerWith]
  | .name note symbol => by rw [Expr.lowerWith]
  | .assign note target value => by
      rw [Expr.lowerWith, Expr.lower, Expr.lowerWith_coerce scopes value]
      cases target with
      | unary inner op pointer =>
          cases op with
          | deref => simp only [Expr.lowerWith_coerce scopes pointer]
          | _ => rfl
      | _ => rfl
  | .binary note op left right => by
      rw [Expr.lowerWith, Expr.lower, Expr.lowerWith_coerce scopes left,
        Expr.lowerWith_coerce scopes right]
  | .unary note .plus operand | .unary note .negate operand | .unary note .deref operand
  | .unary note .increment operand | .unary note .decrement operand => by
      rw [Expr.lowerWith, Expr.lower, Expr.lowerWith_coerce scopes operand]
  | .unary note .addressOf operand => by
      cases operand with
      | unary inner op pointer =>
          cases op with
          | deref => rw [Expr.lowerWith, Expr.lower, Expr.lowerWith_coerce scopes pointer]
          | _ => rfl
      | _ => rfl
  | .call note function arguments => by
      rw [Expr.lowerWith_call, Expr.lower_call_required, lowerCallWith, lowerCall,
        lowerArgumentsWith_coerce scopes function.parameters arguments]

theorem lowerArgumentsWith_coerce (scopes : Scopes) :
    ∀ (parameters : List Ty) (arguments : List Expr),
      lowerArgumentsWith (fun _ => coerce) scopes parameters arguments =
        lowerArguments scopes parameters arguments
  | parameter :: parameters, argument :: arguments => by
      rw [lowerArgumentsWith, lowerArguments, Expr.lowerWith_coerce scopes argument,
        lowerArgumentsWith_coerce scopes parameters arguments]
  | [], _ | _ :: _, [] => by rw [lowerArgumentsWith, lowerArguments] <;> simp

end

namespace Frame

variable (frame : Frame)

theorem setInitialWith_coerce (declared : Declaration) :
    frame.setInitialWith (fun _ => coerce) declared = frame.setInitial declared := by
  unfold setInitialWith setInitial
  cases declared.initial with
  | none => rfl
  | some value => simp only [Expr.lowerWith_coerce]

theorem discardWith_coerce (value : Expr) :
    frame.discardWith (fun _ => coerce) value = frame.discard value := by
  rw [discardWith, discard_eq]
  cases value with
  | call note function arguments =>
      simp only [evaluateWith, evaluate, lowerCallWith, lowerCall, lowerArgumentsWith_coerce]
  | _ => simp only [evaluateWith, evaluate, Expr.lowerWith_coerce]

theorem testWith_coerce (condition : Expr) :
    frame.testWith (fun _ => coerce) condition = frame.test condition := by
  rw [testWith, test_eq, Expr.lowerWith_coerce]

theorem leaveWith_coerce (value : Option Expr) (scope : ScopeId) :
    frame.leaveWith (fun _ => coerce) value scope = frame.leave value scope := by
  rw [leaveWith, leave_eq]
  cases value with
  | none => rfl
  | some value =>
      simp only [leaveValueWith, leaveValue, leaveResultWith, leaveResult, Expr.lowerWith_coerce]

end Frame

mutual

/-- With the coercion of the language, a statement is lowered as it was. -/
theorem Statement.lowerWith_coerce (frame : Frame) :
    ∀ statement : Statement, statement.lowerWith (fun _ => coerce) frame = statement.lower frame
  | .declaration declared => by
      rw [Statement.lowerWith, Statement.lower, Frame.setInitialWith_coerce]
  | .expression value => by
      rw [Statement.lowerWith, Statement.lower, Frame.discardWith_coerce]
  | .returning value scope location => by
      rw [Statement.lowerWith, Statement.lower, Frame.leaveWith_coerce]
  | .branch condition yes no location => by
      rw [Statement.lowerWith, Statement.lower, Frame.testWith_coerce,
        Statement.lowerWith_coerce frame yes]
      cases no with
      | none => rfl
      | some no => simp only [Statement.lowerWith_coerce frame no]
  | .loop condition body location => by
      rw [Statement.lowerWith, Statement.lower, Frame.testWith_coerce,
        Statement.lowerWith_coerce frame body]
  | .block scope body location => by
      rw [Statement.lowerWith, Statement.lower, lowerStatementsWith_coerce frame body]

theorem lowerStatementsWith_coerce (frame : Frame) :
    ∀ body : List Statement,
      lowerStatementsWith (fun _ => coerce) frame body = lowerStatements frame body
  | [] => by rw [lowerStatementsWith, lowerStatements]
  | statement :: rest => by
      rw [lowerStatementsWith, lowerStatements, Statement.lowerWith_coerce frame statement,
        lowerStatementsWith_coerce frame rest]

end

theorem Item.lowerWith_coerce (scopes : Scopes) (item : Item) :
    item.lowerWith (fun _ => coerce) scopes = item.lower scopes := by
  cases item with
  | global declared => rfl
  | function defined =>
      simp only [Item.lowerWith, Item.lower, Function.lowerWith, Function.lower,
        Function.toFrame, lowerStatementsWith_coerce]

/-- With the coercion of the language, a program has the lines that it had. -/
theorem Program.linesWith_coerce (program : Program) :
    program.linesWith (fun _ => coerce) = program.lines := by
  have hitems : Item.lowerWith (fun _ => coerce) program.scopes = Item.lower program.scopes :=
    funext (Item.lowerWith_coerce program.scopes)
  rw [linesWith, lines, lowerWith, lower, hitems]

end AccumulatorC
