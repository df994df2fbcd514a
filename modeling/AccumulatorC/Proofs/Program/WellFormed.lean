import AccumulatorC.Program.Parser.Unit
import AccumulatorC.Proofs.Program.Scoping

/-!
# Well-formed programs

What reading a program guarantees about its tree: every expression has the type that its
operands give it and stands in the scope around it, every name is visible where it is used,
every block lies in the scope of the block around it, and the parameters of a function fill
their frame above the return address.
-/

namespace AccumulatorC

namespace Ty

/-- A value of one type can be stored in something of another. -/
def Accepts (target value : Ty) : Prop := ∃ warning, target.assign value = .ok warning

/-- Two types are combined in a third one. -/
def Combines (left right common : Ty) : Prop := ∃ warning, left.common right = .ok (common, warning)

theorem Accepts.isScalar {target value : Ty} (h : target.Accepts value) :
    target.isScalar = true ∧ value.isScalar = true := by
  obtain ⟨warning, h⟩ := h
  cases target <;> cases value <;> first | exact ⟨rfl, rfl⟩ | cases h

theorem Combines.isScalar {left right common : Ty} (h : left.Combines right common) :
    left.isScalar = true ∧ right.isScalar = true ∧ common.isScalar = true := by
  obtain ⟨warning, h⟩ := h
  cases left <;> cases right <;> cases h <;> exact ⟨rfl, rfl, rfl⟩

/-- The common type of two operands is no smaller than either of them. -/
theorem Combines.size_le {left right common : Ty} (h : left.Combines right common) :
    left.size ≤ common.size ∧ right.size ≤ common.size := by
  obtain ⟨warning, h⟩ := h
  cases left <;> cases right <;> cases h <;> simp [size]

theorem size_of_isScalar {type : Ty} (h : type.isScalar = true) :
    type.size = 1 ∨ type.size = 2 := by
  cases type <;> simp_all [isScalar, size]

theorem size_of_not_void {type : Ty} (h : type.isVoid = false) :
    type.size = 1 ∨ type.size = 2 := by
  cases type <;> simp_all [isVoid, size]

theorem size_le_two (type : Ty) : type.size ≤ 2 := by
  cases type <;> simp [size]

theorem isVoid_of_isScalar {type : Ty} (h : type.isScalar = true) : type.isVoid = false := by
  cases type <;> simp_all [isScalar, isVoid]

theorem isScalar_of_not {type : Ty} (hfunction : type.isFunction = false)
    (hvoid : type.isVoid = false) : type.isScalar = true := by
  cases type <;> simp_all [isFunction, isVoid, isScalar]

end Ty

/-- Whether an operator keeps the type of its operand. -/
def UnaryOp.keepsType : UnaryOp → Bool
  | addressOf | deref => false
  | plus | negate | increment | decrement => true

/-- Whether an operator gives a neighbouring value. -/
def UnaryOp.steps : UnaryOp → Bool
  | increment | decrement => true
  | plus | negate | addressOf | deref => false

/-- Expressions as they are read in a scope. -/
inductive Expr.WellFormed (scopes : Scopes) (scope : ScopeId) : Expr → Prop
  | number {note : Note} {value : UInt16} (hscope : note.scope = scope)
      (hconstant : note.constant = true)
      (htype : note.type = .char ∧ value ≤ 0xff ∨ note.type = .int) :
      WellFormed scopes scope (.number note value)
  | string {note : Note} {bytes : List UInt8} (hscope : note.scope = scope)
      (hconstant : note.constant = true) (htype : note.type = .pointer .char) :
      WellFormed scopes scope (.string note bytes)
  | name {note : Note} {symbol : Symbol} (hscope : note.scope = scope)
      (hconstant : note.constant = false) (htype : note.type = symbol.type)
      (hfunction : symbol.type.isFunction = false) (hvisible : scopes.Visible scope symbol) :
      WellFormed scopes scope (.name note symbol)
  | assign {note : Note} {target value : Expr} (hscope : note.scope = scope)
      (hconstant : note.constant = false) (hplace : target.isPlace = true)
      (htype : note.type = target.type) (haccepts : target.type.Accepts value.type)
      (htarget : WellFormed scopes scope target) (hvalue : WellFormed scopes scope value) :
      WellFormed scopes scope (.assign note target value)
  | binary {note : Note} {op : BinaryOp} {left right : Expr} (hscope : note.scope = scope)
      (hconstant : note.constant =
        (left.note.constant && right.note.constant && !left.isString && !right.isString))
      (hcombines : left.type.Combines right.type note.type)
      (hleft : WellFormed scopes scope left) (hright : WellFormed scopes scope right) :
      WellFormed scopes scope (.binary note op left right)
  | addressOf {note : Note} {operand : Expr} (hscope : note.scope = scope)
      (hconstant : note.constant = false) (hplace : operand.isPlace = true)
      (htype : note.type = .pointer operand.type) (hoperand : WellFormed scopes scope operand) :
      WellFormed scopes scope (.unary note .addressOf operand)
  | deref {note : Note} {operand : Expr} (hscope : note.scope = scope)
      (hconstant : note.constant = false) (htype : operand.type = .pointer note.type)
      (hoperand : WellFormed scopes scope operand) :
      WellFormed scopes scope (.unary note .deref operand)
  | keeping {note : Note} {op : UnaryOp} {operand : Expr} (hop : op.keepsType = true)
      (hscope : note.scope = scope)
      (hconstant : note.constant = (operand.note.constant && !operand.isString))
      (hsteps : op.steps = true → operand.note.constant = false)
      (htype : note.type = operand.type) (hvalue : operand.type.isVoid = false)
      (hoperand : WellFormed scopes scope operand) :
      WellFormed scopes scope (.unary note op operand)
  | call {note : Note} {function : Symbol} {arguments : List Expr} {parameters : List Ty}
      (hscope : note.scope = scope) (hconstant : note.constant = false)
      (htype : function.type = .function note.type parameters)
      (hvisible : scopes.Visible scope function)
      (haccepts : List.Forall₂ (fun parameter (argument : Expr) =>
        parameter.Accepts argument.type) parameters arguments)
      (harguments : ∀ argument ∈ arguments, WellFormed scopes scope argument) :
      WellFormed scopes scope (.call note function arguments)

/-- Statements as they are read in a scope of a function with a result. -/
inductive Statement.WellFormed (scopes : Scopes) (result : Ty) : ScopeId → Statement → Prop
  | declaration {scope : ScopeId} {declared : Declaration}
      (hscope : declared.symbol.scope = scope) (hvisible : scopes.Visible scope declared.symbol)
      (hinitial : ∀ value, declared.initial = some value →
        value.WellFormed scopes scope ∧ declared.symbol.type.Accepts value.type) :
      WellFormed scopes result scope (.declaration declared)
  | expression {scope : ScopeId} {value : Expr} (hvalue : value.WellFormed scopes scope)
      (hcall : value.isCall = true ∨ value.type.isVoid = false) :
      WellFormed scopes result scope (.expression value)
  | returning {scope : ScopeId} {value : Option Expr} {location : Location}
      (hnone : value = none → result.isVoid = true)
      (hvalue : ∀ given, value = some given →
        given.WellFormed scopes scope ∧ result.Accepts given.type) :
      WellFormed scopes result scope (.returning value scope location)
  | branch {scope : ScopeId} {condition : Expr} {yes : Statement} {no : Option Statement}
      {location : Location} (hcondition : condition.WellFormed scopes scope)
      (hvalue : condition.type.isVoid = false) (hyes : WellFormed scopes result scope yes)
      (hno : ∀ other, no = some other → WellFormed scopes result scope other) :
      WellFormed scopes result scope (.branch condition yes no location)
  | loop {scope : ScopeId} {condition : Expr} {body : Statement} {location : Location}
      (hcondition : condition.WellFormed scopes scope) (hvalue : condition.type.isVoid = false)
      (hbody : WellFormed scopes result scope body) :
      WellFormed scopes result scope (.loop condition body location)
  | block {scope inner : ScopeId} {table : Scope} {body : List Statement} {location : Location}
      (hinner : scopes.list[inner]? = some table) (hparent : table.parent = some scope)
      (hbody : ∀ statement ∈ body, WellFormed scopes result inner statement) :
      WellFormed scopes result scope (.block inner body location)

/-- The type of a function's result. -/
def Symbol.result (symbol : Symbol) : Ty :=
  match symbol.type with
  | .function result _ => result
  | other => other

/-- Bytes that symbols take together. -/
def Symbol.bytes (symbols : List Symbol) : Nat := (symbols.map (·.type.size)).sum

/-- Symbols that follow one another in a frame without gaps, the latest first. -/
def Symbol.Contiguous : List Symbol → Prop
  | [] => True
  | latest :: earlier => latest.storage = .framed (Symbol.bytes earlier) ∧ Contiguous earlier

/-- The scope of a function's parameters: they have the given types, follow one another from
the start of the frame, and leave as many bytes as the return address takes. -/
structure Scope.Parameters (scope : Scope) (types : List Ty) : Prop where
  parent : scope.parent = some globalScope
  types : scope.inOrder.map (·.type) = types
  contiguous : Symbol.Contiguous scope.symbols
  frame : scope.frame = Symbol.bytes scope.symbols + returnAddressSize
  fits : scope.frame < addressLimit

/-- Functions as they are read. -/
structure Function.WellFormed (scopes : Scopes) (function : Function) : Prop where
  /-- The function is declared in the global scope, and its parameters fill their scope. -/
  signature : ∃ (result : Ty) (types : List Ty) (table : Scope),
    function.symbol.type = .function result types ∧
      scopes.list[function.parameters]? = some table ∧ table.Parameters types ∧
      ∀ statement ∈ function.body, statement.WellFormed scopes result function.scope
  visible : scopes.Visible globalScope function.symbol
  /-- The body lies in the scope of the parameters. -/
  body : ∃ table : Scope, scopes.list[function.scope]? = some table ∧
    table.parent = some function.parameters

/-- The symbol that an item declares. -/
def Item.symbol : Item → Symbol
  | .global declared => declared.symbol
  | .function defined => defined.symbol

/-- The name that an item declares. -/
def Item.name : Item → String
  | .global declared => declared.symbol.name
  | .function defined => defined.symbol.name

theorem Item.name_eq (item : Item) : item.name = item.symbol.name := by
  cases item <;> rfl

/-- Programs as they are read. -/
structure Program.WellFormed (program : Program) : Prop where
  scopes : program.scopes.WellFormed
  functions : ∀ function, .function function ∈ program.items →
    function.WellFormed program.scopes
  /-- The initial value of a global variable can be found when the program is compiled. -/
  globals : ∀ declared value, .global declared ∈ program.items → declared.initial = some value →
    value.WellFormed program.scopes globalScope ∧
      declared.symbol.type.Accepts value.type ∧ value.isInitializer = true
  /-- Everything that can be called is a function of the program. -/
  defined : ∀ symbol, program.scopes.Visible globalScope symbol →
    symbol.type.isFunction = true →
    ∃ function, .function function ∈ program.items ∧ function.symbol = symbol
  /-- No name is declared twice. -/
  names : (program.items.map Item.name).Nodup

/-! ## Expressions by the way they are lowered -/

namespace Expr.WellFormed

variable {scopes : Scopes} {scope : ScopeId}

/-- What stands behind a dereference is itself well-formed, and a pointer. -/
theorem of_deref {note : Note} {operand : Expr}
    (h : (Expr.unary note .deref operand).WellFormed scopes scope) :
    note.scope = scope ∧ operand.type = .pointer note.type ∧ operand.WellFormed scopes scope := by
  cases h with
  | deref hscope _ htype hoperand => exact ⟨hscope, htype, hoperand⟩
  | keeping hop => cases hop

/-- A named place is a visible variable. -/
theorem of_name {note : Note} {symbol : Symbol}
    (h : (Expr.name note symbol).WellFormed scopes scope) :
    note.scope = scope ∧ note.type = symbol.type ∧ scopes.Visible scope symbol := by
  cases h with
  | name hscope _ htype _ hvisible => exact ⟨hscope, htype, hvisible⟩

/-- Induction along the way in which expressions are lowered: of a place behind a pointer only
the pointer is lowered. -/
theorem alongLowering {motive : ∀ e : Expr, e.WellFormed scopes scope → Prop}
    (number : ∀ {note value} (h : (Expr.number note value).WellFormed scopes scope), motive _ h)
    (string : ∀ {note bytes} (h : (Expr.string note bytes).WellFormed scopes scope), motive _ h)
    (name : ∀ {note symbol} (h : (Expr.name note symbol).WellFormed scopes scope), motive _ h)
    (assignName : ∀ {note inner symbol value}
      (h : (Expr.assign note (.name inner symbol) value).WellFormed scopes scope)
      (hvalue : value.WellFormed scopes scope), motive value hvalue → motive _ h)
    (assignDeref : ∀ {note inner pointer value}
      (h : (Expr.assign note (.unary inner .deref pointer) value).WellFormed scopes scope)
      (hvalue : value.WellFormed scopes scope) (hpointer : pointer.WellFormed scopes scope),
      motive value hvalue → motive pointer hpointer → motive _ h)
    (binary : ∀ {note op left right}
      (h : (Expr.binary note op left right).WellFormed scopes scope)
      (hleft : left.WellFormed scopes scope) (hright : right.WellFormed scopes scope),
      motive left hleft → motive right hright → motive _ h)
    (addressName : ∀ {note inner symbol}
      (h : (Expr.unary note .addressOf (.name inner symbol)).WellFormed scopes scope), motive _ h)
    (addressDeref : ∀ {note inner pointer}
      (h : (Expr.unary note .addressOf (.unary inner .deref pointer)).WellFormed scopes scope)
      (hpointer : pointer.WellFormed scopes scope), motive pointer hpointer → motive _ h)
    (deref : ∀ {note operand} (h : (Expr.unary note .deref operand).WellFormed scopes scope)
      (hoperand : operand.WellFormed scopes scope), motive operand hoperand → motive _ h)
    (keeping : ∀ {note op operand} (h : (Expr.unary note op operand).WellFormed scopes scope)
      (hoperand : operand.WellFormed scopes scope), op.keepsType = true →
      note.type = operand.type → operand.type.isVoid = false →
      motive operand hoperand → motive _ h)
    (call : ∀ {note function arguments}
      (h : (Expr.call note function arguments).WellFormed scopes scope)
      (harguments : ∀ argument ∈ arguments, argument.WellFormed scopes scope),
      (∀ argument (hmem : argument ∈ arguments), motive argument (harguments argument hmem)) →
      motive _ h)
    {e : Expr} (h : e.WellFormed scopes scope) : motive e h := by
  -- A place of an assignment or below an address operator is looked through to its pointer,
  -- so the induction carries the pointer of a dereference along.
  suffices hboth : motive e h ∧ ∀ note pointer, e = .unary note .deref pointer →
      ∃ hpointer, motive pointer hpointer from hboth.1
  induction h with
  | number hscope hconstant htype =>
      exact ⟨number (.number hscope hconstant htype), by rintro _ _ ⟨⟩⟩
  | string hscope hconstant htype =>
      exact ⟨string (.string hscope hconstant htype), by rintro _ _ ⟨⟩⟩
  | name hscope hconstant htype hfunction hvisible =>
      exact ⟨name (.name hscope hconstant htype hfunction hvisible), by rintro _ _ ⟨⟩⟩
  | @assign note target value hscope hconstant hplace htype haccepts htarget hvalue ihtarget
      ihvalue =>
      have h := Expr.WellFormed.assign hscope hconstant hplace htype haccepts htarget hvalue
      refine ⟨?_, by rintro _ _ ⟨⟩⟩
      cases target with
      | name inner symbol => exact assignName h hvalue ihvalue.1
      | unary inner op pointer =>
          cases op <;> try cases hplace
          obtain ⟨hpointer, ihpointer⟩ := ihtarget.2 inner pointer rfl
          exact assignDeref h hvalue hpointer ihvalue.1 ihpointer
      | _ => cases hplace
  | binary hscope hconstant hcombines hleft hright ihleft ihright =>
      exact ⟨binary (.binary hscope hconstant hcombines hleft hright) hleft hright
        ihleft.1 ihright.1, by rintro _ _ ⟨⟩⟩
  | @addressOf note operand hscope hconstant hplace htype hoperand ih =>
      have h := Expr.WellFormed.addressOf hscope hconstant hplace htype hoperand
      refine ⟨?_, by rintro _ _ ⟨⟩⟩
      cases operand with
      | name inner symbol => exact addressName h
      | unary inner op pointer =>
          cases op <;> try cases hplace
          obtain ⟨hpointer, ihpointer⟩ := ih.2 inner pointer rfl
          exact addressDeref h hpointer ihpointer
      | _ => cases hplace
  | deref hscope hconstant htype hoperand ih =>
      refine ⟨deref (.deref hscope hconstant htype hoperand) hoperand ih.1, ?_⟩
      rintro _ _ ⟨⟩
      exact ⟨hoperand, ih.1⟩
  | keeping hop hscope hconstant hsteps htype hvalue hoperand ih =>
      refine ⟨keeping (.keeping hop hscope hconstant hsteps htype hvalue hoperand) hoperand hop htype
        hvalue ih.1, ?_⟩
      rintro _ _ ⟨⟩
      cases hop
  | call hscope hconstant htype hvisible haccepts harguments ih =>
      exact ⟨call (.call hscope hconstant htype hvisible haccepts harguments) harguments
        fun argument hmem => (ih argument hmem).1, by rintro _ _ ⟨⟩⟩

end Expr.WellFormed

/-! ## Growing tables -/

section Growing

variable {before after : Scopes} {current scope : ScopeId}

theorem Expr.WellFormed.grows (hwf : before.WellFormed) (hgrows : before.Grows after current)
    (hscope : scope < before.list.length) {e : Expr} (h : e.WellFormed before scope) :
    e.WellFormed after scope := by
  induction h with
  | number hscope hconstant htype => exact .number hscope hconstant htype
  | string hscope hconstant htype => exact .string hscope hconstant htype
  | name hnote hconstant htype hfunction hvisible =>
      exact .name hnote hconstant htype hfunction (hgrows.visible hwf hscope hvisible)
  | assign hnote hconstant hplace htype haccepts _ _ ihtarget ihvalue =>
      exact .assign hnote hconstant hplace htype haccepts ihtarget ihvalue
  | binary hnote hconstant hcombines _ _ ihleft ihright =>
      exact .binary hnote hconstant hcombines ihleft ihright
  | addressOf hnote hconstant hplace htype _ ih => exact .addressOf hnote hconstant hplace htype ih
  | deref hnote hconstant htype _ ih => exact .deref hnote hconstant htype ih
  | keeping hop hnote hconstant hsteps htype hvalue _ ih =>
      exact .keeping hop hnote hconstant hsteps htype hvalue ih
  | call hnote hconstant htype hvisible haccepts _ ih =>
      exact .call hnote hconstant htype (hgrows.visible hwf hscope hvisible) haccepts ih

theorem Statement.WellFormed.grows {result : Ty} (hwf : before.WellFormed)
    (hgrows : before.Grows after current) (hscope : scope < before.list.length)
    {statement : Statement} (h : statement.WellFormed before result scope) :
    statement.WellFormed after result scope := by
  induction h with
  | declaration hsymbol hvisible hinitial =>
      exact .declaration hsymbol (hgrows.visible hwf hscope hvisible) fun value hvalue =>
        ⟨(hinitial value hvalue).1.grows hwf hgrows hscope, (hinitial value hvalue).2⟩
  | expression hvalue hcall => exact .expression (hvalue.grows hwf hgrows hscope) hcall
  | returning hnone hvalue =>
      exact .returning hnone fun given hgiven =>
        ⟨(hvalue given hgiven).1.grows hwf hgrows hscope, (hvalue given hgiven).2⟩
  | branch hcondition hvalue _ _ ihyes ihno =>
      exact .branch (hcondition.grows hwf hgrows hscope) hvalue (ihyes hscope)
        fun other hother => ihno other hother hscope
  | loop hcondition hvalue _ ih =>
      exact .loop (hcondition.grows hwf hgrows hscope) hvalue (ih hscope)
  | block hinner hparent _ ih =>
      obtain ⟨symbols, frame, hafter, -⟩ := hgrows.get hinner
      exact .block hafter hparent fun statement hmem =>
        ih statement hmem (List.getElem?_eq_some_iff.mp hinner).1

/-- While the global scope is the innermost one, functions stay as they are. -/
theorem Function.WellFormed.grows (hwf : before.WellFormed)
    (hgrows : before.Grows after globalScope) {function : Function}
    (h : function.WellFormed before) : function.WellFormed after := by
  obtain ⟨result, types, table, htype, hparameters, hlayout, hbody⟩ := h.signature
  obtain ⟨inner, hinner, hparent⟩ := h.body
  have hroot : globalScope < before.list.length := by
    obtain ⟨symbols, hroot⟩ := hwf.root
    exact (List.getElem?_eq_some_iff.mp hroot).1
  have hne : function.parameters ≠ globalScope := by
    intro heq
    obtain ⟨symbols, hroot⟩ := hwf.root
    rw [heq, hroot, Option.some.injEq] at hparameters
    have := hlayout.parent
    simp [← hparameters] at this
  obtain ⟨symbols, frame, hafter, -⟩ := hgrows.get hinner
  refine ⟨⟨result, types, table, htype, ?_, hlayout, ?_⟩, hgrows.visible hwf hroot h.visible,
    ⟨_, hafter, hparent⟩⟩
  · rw [hgrows.other _ (List.getElem?_eq_some_iff.mp hparameters).1 hne]
    exact hparameters
  · intro statement hmem
    exact (hbody statement hmem).grows hwf hgrows (List.getElem?_eq_some_iff.mp hinner).1

end Growing

end AccumulatorC
