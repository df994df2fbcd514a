import AccumulatorC.Program.Fold
import AccumulatorC.Program.Parser.Unit
import AccumulatorC.Proofs.Program.Scoping

/-!
# Programs without places

Every token, expression and symbol carries its place in a source, for diagnoses. Here the places are
taken away: all of them become one and the same. The rules that build expressions and the operations
on scopes do the same to what has no places, so they decide nothing by them.
-/

namespace AccumulatorC

/-- The place that stands for all others. It is where errors of a source without tokens are. -/
def nowhere : Location := .startOf "<input>"

/-- What goes from nowhere to nowhere is nowhere. -/
@[simp] theorem Location.span_nowhere : Location.span nowhere nowhere = nowhere := rfl

/-- A value that is nowhere. -/
def Located.unplaced {α : Type} (x : Located α) : Located α := ⟨x.value, nowhere⟩

@[simp] theorem Located.unplaced_value {α : Type} (x : Located α) : x.unplaced.value = x.value := rfl

@[simp] theorem Located.unplaced_location {α : Type} (x : Located α) :
    x.unplaced.location = nowhere := rfl

/-- A note without its place. -/
def Note.unplaced (note : Note) : Note := { note with location := nowhere }

/-- A symbol without its place. -/
def Symbol.unplaced (symbol : Symbol) : Symbol := { symbol with location := nowhere }

@[simp] theorem Symbol.unplaced_name (symbol : Symbol) : symbol.unplaced.name = symbol.name := rfl

@[simp] theorem Symbol.unplaced_type (symbol : Symbol) : symbol.unplaced.type = symbol.type := rfl

/-- A scope without the places of its symbols. -/
def Scope.unplaced (scope : Scope) : Scope :=
  { scope with symbols := scope.symbols.map Symbol.unplaced }

/-- Scopes without the places of their symbols. -/
def Scopes.unplaced (scopes : Scopes) : Scopes := ⟨scopes.list.map Scope.unplaced⟩

mutual

/-- An expression without places. -/
def Expr.unplaced : Expr → Expr
  | .number note value => .number note.unplaced value
  | .string note bytes => .string note.unplaced bytes
  | .name note symbol => .name note.unplaced symbol.unplaced
  | .assign note target value => .assign note.unplaced target.unplaced value.unplaced
  | .binary note op left right => .binary note.unplaced op left.unplaced right.unplaced
  | .unary note op operand => .unary note.unplaced op operand.unplaced
  | .call note function arguments =>
      .call note.unplaced function.unplaced (Expr.allUnplaced arguments)

/-- Expressions without places. -/
def Expr.allUnplaced : List Expr → List Expr
  | [] => []
  | e :: rest => e.unplaced :: Expr.allUnplaced rest

end

attribute [local simp] Expr.unplaced Expr.allUnplaced

/-- A declaration without places. -/
def Declaration.unplaced (declared : Declaration) : Declaration :=
  ⟨declared.symbol.unplaced, declared.initial.map Expr.unplaced⟩

mutual

/-- A statement without places. -/
def Statement.unplaced : Statement → Statement
  | .declaration declared => .declaration declared.unplaced
  | .expression value => .expression value.unplaced
  | .returning value scope _ => .returning (value.map Expr.unplaced) scope nowhere
  | .branch condition yes no _ =>
      .branch condition.unplaced yes.unplaced
        (match no with
          | some no => some no.unplaced
          | none => none)
        nowhere
  | .loop condition body _ => .loop condition.unplaced body.unplaced nowhere
  | .block scope body _ => .block scope (Statement.allUnplaced body) nowhere

/-- Statements without places. -/
def Statement.allUnplaced : List Statement → List Statement
  | [] => []
  | statement :: rest => statement.unplaced :: Statement.allUnplaced rest

end

/-- A function without places. -/
def Function.unplaced (function : Function) : Function :=
  { function with
    symbol := function.symbol.unplaced
    body := Statement.allUnplaced function.body
    location := nowhere }

/-- An item without places. -/
def Item.unplaced : Item → Item
  | .global declared => .global declared.unplaced
  | .function defined => .function defined.unplaced

/-- A program without places. -/
def Program.unplaced (program : Program) : Program :=
  ⟨program.items.map Item.unplaced, program.scopes.unplaced⟩

/-- What was read, without places. -/
def Parsed.unplaced (parsed : Parsed) : Parsed :=
  ⟨parsed.program.unplaced, parsed.warnings.map Located.unplaced⟩

/-- A scope error without the place of what was declared before. -/
def ScopeError.unplaced : ScopeError → ScopeError
  | .redeclaration name _ => .redeclaration name nowhere
  | .undeclared name => .undeclared name

/-- The cause of an error without places in it. -/
def ParseError.unplaced : ParseError → ParseError
  | .scope cause => .scope cause.unplaced
  | cause => cause

/-- An error without its place. -/
def ParseError.located (error : Located ParseError) : Located ParseError :=
  ⟨error.value.unplaced, nowhere⟩

/-! ## Expressions -/

namespace Expr

theorem allUnplaced_eq_map (list : List Expr) : allUnplaced list = list.map unplaced := by
  induction list with
  | nil => rfl
  | cons e rest ih => rw [allUnplaced, ih, List.map_cons]

@[simp] theorem unplaced_note (e : Expr) : e.unplaced.note = e.note.unplaced := by
  cases e <;> simp [note]

@[simp] theorem unplaced_type (e : Expr) : e.unplaced.type = e.type := by
  rw [type, unplaced_note]
  rfl

@[simp] theorem unplaced_location (e : Expr) : e.unplaced.location = nowhere := by
  rw [location, unplaced_note]
  rfl

@[simp] theorem unplaced_constant (e : Expr) : e.unplaced.note.constant = e.note.constant := by
  rw [unplaced_note]
  rfl

@[simp] theorem unplaced_isString (e : Expr) : e.unplaced.isString = e.isString := by
  cases e <;> simp [isString]

@[simp] theorem unplaced_isCall (e : Expr) : e.unplaced.isCall = e.isCall := by
  cases e <;> simp [isCall]

@[simp] theorem unplaced_isPlace (e : Expr) : e.unplaced.isPlace = e.isPlace := by
  cases e with
  | unary note op operand => cases op <;> simp [isPlace]
  | _ => simp [isPlace]

/-- The value of a constant does not depend on places. -/
@[simp] theorem unplaced_fold : ∀ e : Expr, e.unplaced.fold = e.fold
  | .number note value => by simp [fold, Note.unplaced]
  | .unary note op operand => by
      cases op <;> simp [fold, Note.unplaced, unplaced_fold operand]
  | .binary note op left right => by
      simp [fold, Note.unplaced, unplaced_fold left, unplaced_fold right]
  | .string _ _ | .name _ _ | .assign _ _ _ | .call _ _ _ => by simp [fold]

@[simp] theorem unplaced_isInitializer (e : Expr) : e.unplaced.isInitializer = e.isInitializer := by
  rw [isInitializer, unplaced_constant, unplaced_isString, unplaced_fold, isInitializer]

end Expr

/-! ## Scopes -/

namespace Scopes

variable {scopes after : Scopes} {id parent : ScopeId}

theorem unplaced_list (scopes : Scopes) (id : ScopeId) :
    scopes.unplaced.list[id]? = scopes.list[id]?.map Scope.unplaced := by
  rw [unplaced, List.getElem?_map]

theorem unplaced_get (scopes : Scopes) (id : ScopeId) :
    scopes.unplaced.get id = (scopes.get id).map Scope.unplaced := by
  rw [get, get, unplaced_list]
  cases scopes.list[id]? <;> rfl

theorem unplaced_set (scopes : Scopes) (id : ScopeId) (scope : Scope) :
    (scopes.set id scope).unplaced = scopes.unplaced.set id scope.unplaced := by
  simp [set, unplaced, List.map_set]

theorem unplaced_enter (scopes : Scopes) (parent : ScopeId) :
    scopes.unplaced.enter parent =
      (scopes.enter parent).map fun entered => (entered.1, entered.2.unplaced) := by
  rw [enter, enter, unplaced_get]
  cases scopes.get parent with
  | error cause => rfl
  | ok scope => simp [unplaced, Except.map, Scope.unplaced, bind, Except.bind, pure, Except.pure]

theorem unplaced_reserve (scopes : Scopes) (id : ScopeId) (bytes : Nat) :
    scopes.unplaced.reserve id bytes = (scopes.reserve id bytes).map unplaced := by
  rw [reserve, reserve, unplaced_get]
  cases scopes.get id with
  | error cause => rfl
  | ok scope =>
      simp only [Except.map, bind, Except.bind, pure, Except.pure, Scope.unplaced]
      cases addBytes scope.frame bytes with
      | error cause => rfl
      | ok frame => simp [unplaced_set, Scope.unplaced]

theorem unplaced_find? (symbols : List Symbol) (name : String) :
    (symbols.map Symbol.unplaced).find? (·.name = name) =
      (symbols.find? (·.name = name)).map Symbol.unplaced := by
  rw [List.find?_map]
  rfl

theorem unplaced_allot (scope : Scope) (type : Ty) (external : Bool) :
    allot scope.unplaced type external = allot scope type external := rfl

/-- What is declared nowhere is declared all the same. -/
theorem unplaced_declare (scopes : Scopes) (id : ScopeId) (name : String) (location : Location)
    (type : Ty) (external : Bool) :
    scopes.unplaced.declare id name nowhere type external =
      match scopes.declare id name location type external with
      | .ok (symbol, after) => .ok (symbol.unplaced, after.unplaced)
      | .error stop => .error (stop.map ScopeError.unplaced) := by
  rw [declare_eq, declare_eq, unplaced_get]
  cases scopes.get id with
  | error cause => rfl
  | ok scope =>
      simp only [Except.map, Breakdown.lift, bind, Except.bind, Scope.unplaced]
      rw [unplaced_find?]
      cases scope.symbols.find? (·.name = name) with
      | some previous => rfl
      | none =>
          simp only [Option.map_none]
          have hallot := unplaced_allot scope type external
          rw [Scope.unplaced] at hallot
          rw [hallot]
          cases allot scope type external with
          | error cause => rfl
          | ok allotted => simp [unplaced_set, Scope.unplaced, pure, Except.pure, Symbol.unplaced]

theorem unplaced_chain (scopes : Scopes) (id : ScopeId) :
    scopes.unplaced.chain id = scopes.chain id := by
  induction id using Nat.strongRecOn with
  | ind id ih =>
      have hparent : (scopes.unplaced.list[id]?).bind (·.parent) =
          (scopes.list[id]?).bind (·.parent) := by
        rw [unplaced_list]
        cases scopes.list[id]? <;> rfl
      rw [chain, chain, hparent]
      cases (scopes.list[id]?).bind (·.parent) with
      | none => rfl
      | some parent =>
          dsimp only
          split
          next hlt => rw [ih parent hlt]
          next => rfl

theorem unplaced_lookup? (scopes : Scopes) (id : ScopeId) (name : String) :
    scopes.unplaced.lookup? id name = (scopes.lookup? id name).map Symbol.unplaced := by
  rw [lookup?, lookup?, unplaced_chain]
  induction scopes.chain id with
  | nil => rfl
  | cons id rest ih =>
      rw [List.findSome?_cons, List.findSome?_cons, ih, unplaced_list]
      cases scopes.list[id]? with
      | none => rfl
      | some scope =>
          simp only [Option.map_some, Option.bind_some, Scope.unplaced, unplaced_find?]
          cases scope.symbols.find? (·.name = name) <;> rfl

theorem unplaced_lookup (scopes : Scopes) (id : ScopeId) (name : String) :
    scopes.unplaced.lookup id name =
      match scopes.lookup id name with
      | .ok symbol => .ok symbol.unplaced
      | .error stop => .error (stop.map ScopeError.unplaced) := by
  rw [lookup, lookup, unplaced_get, unplaced_lookup?]
  cases scopes.get id with
  | error cause => rfl
  | ok scope => cases scopes.lookup? id name <;> rfl

end Scopes

/-! ## The rules -/

/-- The outcome of a rule without places. -/
def Checked.unplaced {α β : Type} (f : α → β) : Checked α → Checked β
  | .ok value => .ok (f value)
  | .error error => .error (ParseError.located error)

/-- An expression with its warnings, without places. -/
def Noted.unplaced (noted : Noted Expr) : Noted Expr :=
  ⟨noted.value.unplaced, noted.warnings.map Located.unplaced⟩

namespace Checked

variable {α β γ : Type}

/-- Places can be left out before or after two rules. -/
theorem unplaced_bind {f : α → β} {g : γ → γ} {first : Checked α} {second : α → Checked γ}
    {first' : Checked β} {second' : β → Checked γ} (h : first' = unplaced f first)
    (hsecond : ∀ value, second' (f value) = unplaced g (second value)) :
    (first' >>= second') = unplaced g (first >>= second) := by
  subst h
  cases first with
  | error error => rfl
  | ok value => exact hsecond value

theorem noted_unplaced (warning : Option Conversion) (location : Location) :
    noted warning nowhere = (noted warning location).map Located.unplaced := by
  cases warning <;> rfl

theorem ofTypes_unplaced (location : Location) (result : Except TypeError α) :
    ofTypes nowhere result = unplaced id (ofTypes location result) := by
  cases result <;> rfl

theorem requireValue_unplaced (e : Expr) :
    requireValue e.unplaced = unplaced id (requireValue e) := by
  rw [requireValue, requireValue, Expr.unplaced_type, Expr.unplaced_location]
  split <;> rfl

theorem bindValue_unplaced (type : Ty) (value : Expr) :
    bindValue type value.unplaced =
      unplaced (List.map Located.unplaced) (bindValue type value) := by
  refine unplaced_bind (requireValue_unplaced value) fun _ => ?_
  rw [Expr.unplaced_type, Expr.unplaced_location]
  refine unplaced_bind (ofTypes_unplaced value.location _) fun warning => ?_
  exact congrArg Except.ok (noted_unplaced warning value.location)

theorem bindValues_unplaced (types : List Ty) (values : List Expr) :
    bindValues types (values.map Expr.unplaced) =
      unplaced (List.map Located.unplaced) (bindValues types values) := by
  induction types generalizing values with
  | nil => cases values <;> rfl
  | cons type types ih =>
      cases values with
      | nil => rfl
      | cons value values =>
          refine unplaced_bind (bindValue_unplaced type value) fun first => ?_
          refine unplaced_bind (ih values) fun rest => ?_
          exact congrArg Except.ok List.map_append.symm

end Checked

namespace Expr

open Checked

/-- An assignment is built the same way without places. -/
theorem assigned_unplaced (scope : ScopeId) (location : Location) (target value : Expr) :
    assigned scope nowhere target.unplaced value.unplaced =
      Checked.unplaced Noted.unplaced (assigned scope location target value) := by
  rw [assigned, assigned, unplaced_isPlace]
  split
  · refine unplaced_bind (requireValue_unplaced value) fun _ => ?_
    rw [unplaced_type, unplaced_type]
    refine unplaced_bind (ofTypes_unplaced location _) fun warning => ?_
    exact congrArg Except.ok (congrArg (Noted.mk _) (noted_unplaced warning location))
  · rw [unplaced_location]
    rfl

theorem combined_unplaced (scope : ScopeId) (location : Location) (op : BinaryOp)
    (left right : Expr) :
    combined scope nowhere op left.unplaced right.unplaced =
      Checked.unplaced Noted.unplaced (combined scope location op left right) := by
  refine unplaced_bind (requireValue_unplaced left) fun _ => ?_
  refine unplaced_bind (requireValue_unplaced right) fun _ => ?_
  rw [unplaced_type, unplaced_type]
  refine unplaced_bind (ofTypes_unplaced location _) fun common => ?_
  rw [unplaced_constant, unplaced_constant, unplaced_isString, unplaced_isString]
  exact congrArg Except.ok (congrArg (Noted.mk _) (noted_unplaced common.2 location))

theorem applied_unplaced (scope : ScopeId) (location : Location) (op : UnaryOp) (operand : Expr) :
    applied scope nowhere op operand.unplaced =
      Checked.unplaced Noted.unplaced (applied scope location op operand) := by
  cases op with
  | addressOf =>
      simp only [applied, unplaced_isPlace, unplaced_type]
      split <;> rfl
  | deref =>
      simp only [applied, unplaced_type]
      split <;> rfl
  | _ =>
      refine unplaced_bind (requireValue_unplaced operand) fun _ => ?_
      rw [unplaced_type, unplaced_constant, unplaced_isString]
      rfl

theorem stepped_unplaced (scope : ScopeId) (location : Location) (op : UnaryOp) (target : Expr) :
    stepped scope nowhere op target.unplaced =
      Checked.unplaced Noted.unplaced (stepped scope location op target) := by
  rw [stepped, stepped, unplaced_isPlace]
  split
  · refine unplaced_bind (applied_unplaced scope location op target) fun neighbour => ?_
    refine unplaced_bind (assigned_unplaced scope location target neighbour.value) fun step => ?_
    exact congrArg Except.ok (congrArg (Noted.mk _) List.map_append.symm)
  · rw [unplaced_location]
    rfl

theorem steppedAfter_unplaced (scope : ScopeId) (location : Location) (op back : UnaryOp)
    (target : Expr) :
    steppedAfter scope nowhere op back target.unplaced =
      Checked.unplaced Noted.unplaced (steppedAfter scope location op back target) := by
  refine unplaced_bind (stepped_unplaced scope location op target) fun step => ?_
  refine unplaced_bind (applied_unplaced scope location back step.value) fun former => ?_
  exact congrArg Except.ok (congrArg (Noted.mk _) List.map_append.symm)

/-- A call is built the same way without places. -/
theorem called_unplaced (scope : ScopeId) (location : Location) (function : Symbol) (result : Ty)
    (parameters : List Ty) (arguments : List Expr) :
    called scope nowhere function.unplaced result parameters (arguments.map Expr.unplaced) =
      Checked.unplaced Noted.unplaced (called scope location function result parameters arguments) := by
  rw [called, called, List.length_map]
  split
  · refine unplaced_bind (bindValues_unplaced parameters arguments) fun warnings => ?_
    rw [← allUnplaced_eq_map]
    rfl
  · rfl

end Expr

end AccumulatorC
