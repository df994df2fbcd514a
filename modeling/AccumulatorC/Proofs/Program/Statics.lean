import AccumulatorC.Proofs.Program.Parser.Facing
import AccumulatorC.Proofs.Program.Phrase

/-!
# The typed trees of sources

A phrase elaborates to a statement: its terms elaborate to expressions where names mean what the
scopes so far say, its declarations enter the scopes after their initial values, and a block has a
scope of its own inside the one around it. A source elaborates to the items of a program in the same
way, from the scope that encloses all others alone.
-/

namespace AccumulatorC

/-- What the function around returns. -/
def Parser.Setting.returns (given : Parser.Setting) : Ty := given.result.getD .void

/-- A declaration elaborates in a setting, which it changes. The variable is declared after its
initial value. -/
inductive Variable.Elaborates (given : Parser.Setting) :
    Variable → Declaration → Parser.Setting → List Conversion → Prop
  | plain {external : Bool} {type : Ty} {name : String} {symbol : Symbol} {scopes : Scopes}
      (hvalue : external = false → type.isVoid = false)
      (hdeclare : given.scopes.declare given.scope name nowhere type external =
        .ok (symbol, scopes)) :
      Elaborates given ⟨external, type, name, none⟩ ⟨symbol, none⟩ { given with scopes } []
  | initial {type : Ty} {name : String} {value : Term} {e : Expr} {symbol : Symbol}
      {scopes : Scopes} {warnings : List Conversion} {warning : Option Conversion}
      (hvalue : value.Elaborates given.meaning given.scope e warnings)
      (hassign : type.assign e.type = .ok warning)
      (hconstant : given.scope = globalScope → e.isInitializer = true)
      (hdeclare : given.scopes.declare given.scope name nowhere type false = .ok (symbol, scopes)) :
      Elaborates given ⟨false, type, name, some value⟩ ⟨symbol, some e⟩ { given with scopes }
        (warnings ++ warning.toList)

mutual

/-- A phrase elaborates to a statement in a setting, which it changes. -/
inductive Phrase.Elaborates :
    Parser.Setting → Phrase → Statement → Parser.Setting → List Conversion → Prop
  | declaration {given after : Parser.Setting} {declared : Variable} {d : Declaration}
      {warnings : List Conversion} (h : declared.Elaborates given d after warnings) :
      Elaborates given (.declaration declared) (.declaration d) after warnings
  /-- Only a call may have no value. -/
  | expression {given : Parser.Setting} {value : Term} {e : Expr} {warnings : List Conversion}
      (h : value.Elaborates given.meaning given.scope e warnings)
      (hvalue : e.isCall = false → e.type.isVoid = false) :
      Elaborates given (.expression value) (.expression e) given warnings
  | returnNothing {given : Parser.Setting} (hresult : given.returns.isVoid = true) :
      Elaborates given (.returning none) (.returning none given.scope nowhere) given []
  | returnValue {given : Parser.Setting} {value : Term} {e : Expr} {warnings : List Conversion}
      {warning : Option Conversion} (h : value.Elaborates given.meaning given.scope e warnings)
      (hassign : given.returns.assign e.type = .ok warning) :
      Elaborates given (.returning (some value)) (.returning (some e) given.scope nowhere) given
        (warnings ++ warning.toList)
  | branch {given after : Parser.Setting} {condition : Term} {c : Expr} {yes : Phrase}
      {y : Statement} {first second : List Conversion}
      (hcondition : condition.Elaborates given.meaning given.scope c first)
      (hvalue : c.type.isVoid = false) (hyes : Elaborates given yes y after second) :
      Elaborates given (.branch condition yes) (.branch c y none nowhere) after (first ++ second)
  | choice {given middle after : Parser.Setting} {condition : Term} {c : Expr} {yes no : Phrase}
      {y n : Statement} {first second third : List Conversion}
      (hcondition : condition.Elaborates given.meaning given.scope c first)
      (hvalue : c.type.isVoid = false) (hyes : Elaborates given yes y middle second)
      (hno : Elaborates middle no n after third) :
      Elaborates given (.choice condition yes no) (.branch c y (some n) nowhere) after
        (first ++ second ++ third)
  | loop {given after : Parser.Setting} {condition : Term} {c : Expr} {body : Phrase}
      {b : Statement} {first second : List Conversion}
      (hcondition : condition.Elaborates given.meaning given.scope c first)
      (hvalue : c.type.isVoid = false) (hbody : Elaborates given body b after second) :
      Elaborates given (.loop condition body) (.loop c b nowhere) after (first ++ second)
  | block {given after : Parser.Setting} {inner : ScopeId} {entered : Scopes} {body : List Phrase}
      {b : List Statement} {warnings : List Conversion}
      (henter : given.scopes.enter given.scope = .ok (inner, entered))
      (hbody : AllElaborate { given with scopes := entered, scope := inner } body b after
        warnings) :
      Elaborates given (.block body) (.block inner b nowhere) { after with scope := given.scope }
        warnings

/-- Phrases elaborate one after the other. -/
inductive Phrase.AllElaborate :
    Parser.Setting → List Phrase → List Statement → Parser.Setting → List Conversion → Prop
  | nil {given : Parser.Setting} : AllElaborate given [] [] given []
  | cons {given middle after : Parser.Setting} {phrase : Phrase} {statement : Statement}
      {rest : List Phrase} {statements : List Statement} {warnings more : List Conversion}
      (h : Elaborates given phrase statement middle warnings)
      (hrest : AllElaborate middle rest statements after more) :
      AllElaborate given (phrase :: rest) (statement :: statements) after (warnings ++ more)

end

/-- Parameters are declared one after the other. -/
inductive Parameter.AllElaborate (scope : ScopeId) : Scopes → List Parameter → Scopes → Prop
  | nil {scopes : Scopes} : AllElaborate scope scopes [] scopes
  | cons {scopes middle after : Scopes} {type : Ty} {name : String} {symbol : Symbol}
      {rest : List Parameter} (hvalue : type.isVoid = false)
      (hdeclare : scopes.declare scope name nowhere type false = .ok (symbol, middle))
      (hrest : AllElaborate scope middle rest after) :
      AllElaborate scope scopes (⟨type, name⟩ :: rest) after

/-- A routine elaborates to a function. Its name is declared after its parameters and before its
body. -/
inductive Routine.Elaborates : Scopes → Routine → Function → Scopes → List Conversion → Prop
  | mk {scopes entered parameterized reserved declared opened : Scopes}
      {parameterScope inner : ScopeId} {result : Ty} {name : String} {parameters : List Parameter}
      {symbol : Symbol} {body : List Phrase} {b : List Statement} {after : Parser.Setting}
      {warnings : List Conversion}
      (henter : scopes.enter globalScope = .ok (parameterScope, entered))
      (hparameters : Parameter.AllElaborate parameterScope entered parameters parameterized)
      (hreserve : parameterized.reserve parameterScope returnAddressSize = .ok reserved)
      (hdeclare : reserved.declare globalScope name nowhere
        (.function result (parameters.map (·.type))) false = .ok (symbol, declared))
      (hopen : declared.enter parameterScope = .ok (inner, opened))
      (hbody : Phrase.AllElaborate ⟨opened, inner, some result⟩ body b after warnings) :
      Elaborates scopes ⟨result, name, parameters, body⟩ ⟨symbol, parameterScope, inner, b, nowhere⟩
        after.scopes warnings

/-- An entry elaborates to an item, outside of all functions. -/
inductive Entry.Elaborates : Scopes → Entry → Item → Scopes → List Conversion → Prop
  | global {scopes : Scopes} {declared : Variable} {d : Declaration} {after : Parser.Setting}
      {warnings : List Conversion}
      (h : declared.Elaborates ⟨scopes, globalScope, none⟩ d after warnings) :
      Elaborates scopes (.global declared) (.global d) after.scopes warnings
  | function {scopes after : Scopes} {defined : Routine} {f : Function} {warnings : List Conversion}
      (h : defined.Elaborates scopes f after warnings) :
      Elaborates scopes (.function defined) (.function f) after warnings

/-- Entries elaborate one after the other. -/
inductive Entry.AllElaborate : Scopes → List Entry → List Item → Scopes → List Conversion → Prop
  | nil {scopes : Scopes} : AllElaborate scopes [] [] scopes []
  | cons {scopes middle after : Scopes} {entry : Entry} {item : Item} {rest : List Entry}
      {items : List Item} {warnings more : List Conversion}
      (h : entry.Elaborates scopes item middle warnings)
      (hrest : AllElaborate middle rest items after more) :
      AllElaborate scopes (entry :: rest) (item :: items) after (warnings ++ more)

/-- The name that is called first means a function. -/
def Scopes.HasMain (scopes : Scopes) : Prop :=
  ∃ main, scopes.lookup globalScope mainName = .ok main ∧ main.type.isFunction = true

/-! ## What elaboration leaves as it is -/

theorem Variable.Elaborates.keeps {given after : Parser.Setting} {declared : Variable}
    {d : Declaration} {warnings : List Conversion} (h : declared.Elaborates given d after warnings) :
    after.scope = given.scope ∧ after.result = given.result := by
  cases h <;> exact ⟨rfl, rfl⟩

mutual

/-- A phrase leaves the innermost scope and the result as they are. -/
theorem Phrase.Elaborates.keeps : ∀ {given after : Parser.Setting} {phrase : Phrase}
    {statement : Statement} {warnings : List Conversion},
    phrase.Elaborates given statement after warnings →
      after.scope = given.scope ∧ after.result = given.result
  | _, _, _, _, _, .declaration h => h.keeps
  | _, _, _, _, _, .expression _ _ => ⟨rfl, rfl⟩
  | _, _, _, _, _, .returnNothing _ => ⟨rfl, rfl⟩
  | _, _, _, _, _, .returnValue _ _ => ⟨rfl, rfl⟩
  | _, _, _, _, _, .branch _ _ hyes => hyes.keeps
  | _, _, _, _, _, .choice _ _ hyes hno =>
      ⟨hno.keeps.1.trans hyes.keeps.1, hno.keeps.2.trans hyes.keeps.2⟩
  | _, _, _, _, _, .loop _ _ hbody => hbody.keeps
  | _, _, _, _, _, .block _ hbody => ⟨rfl, hbody.keeps.2⟩

theorem Phrase.AllElaborate.keeps : ∀ {given after : Parser.Setting} {phrases : List Phrase}
    {statements : List Statement} {warnings : List Conversion},
    AllElaborate given phrases statements after warnings →
      after.scope = given.scope ∧ after.result = given.result
  | _, _, _, _, _, .nil => ⟨rfl, rfl⟩
  | _, _, _, _, _, .cons h hrest =>
      ⟨hrest.keeps.1.trans h.keeps.1, hrest.keeps.2.trans h.keeps.2⟩

end

theorem Phrase.AllElaborate.append : ∀ {given middle after : Parser.Setting}
    {first second : List Phrase} {statements others : List Statement}
    {warnings more : List Conversion}, AllElaborate given first statements middle warnings →
      AllElaborate middle second others after more →
        AllElaborate given (first ++ second) (statements ++ others) after (warnings ++ more)
  | _, _, _, _, _, _, _, _, _, .nil, h' => h'
  | _, _, _, _, _, _, _, _, _, .cons h hrest, h' => by
      rw [List.append_assoc]
      exact .cons h (hrest.append h')

end AccumulatorC
