import AccumulatorC.Proofs.Program.StaticScopes

/-!
# What names mean where they stand

At every place in a source there are the declarations that come before it in the scopes around it. A
name means the latest of these in the innermost scope that has declared it by then. Phrases bind
their names in this way when they elaborate: a declaration is known after its initial value and up to
the end of its block, a block has a scope of its own inside the one around it, and a function is known
in its body and after it.
-/

namespace AccumulatorC

/-! ## The declarations around a place -/

/-- A scope around a place, with the symbols that it has declared by then, the latest first. -/
structure Layer where
  scope : ScopeId
  symbols : List Symbol

/-- The scopes around a place: the innermost one, and the others from the inside out. -/
structure Surroundings where
  inner : Layer
  outer : List Layer

namespace Surroundings

/-- All scopes around a place, from the inside out. -/
def layers (around : Surroundings) : List Layer := around.inner :: around.outer

/-- The innermost scope. -/
def scope (around : Surroundings) : ScopeId := around.inner.scope

/-- What a name means: the latest of its declarations in the innermost scope that has any. -/
def meaning (around : Surroundings) (name : String) : Option Symbol :=
  around.layers.findSome? fun layer => layer.symbols.find? (·.name = name)

/-- After a declaration. -/
def declare (around : Surroundings) (symbol : Symbol) : Surroundings :=
  ⟨⟨around.scope, symbol :: around.inner.symbols⟩, around.outer⟩

/-- At the beginning of a scope inside the innermost one. -/
def enter (around : Surroundings) (scope : ScopeId) : Surroundings := ⟨⟨scope, []⟩, around.layers⟩

/-- A declaration changes what its own name means, and nothing else. -/
theorem meaning_declare {around : Surroundings} {symbol : Symbol} {name : String}
    (h : symbol.name ≠ name) :
    (around.declare symbol).meaning name = around.meaning name := by
  have hfind : (symbol :: around.inner.symbols).find? (·.name = name) =
      around.inner.symbols.find? (·.name = name) := List.find?_cons_of_neg (by simpa using h)
  rw [meaning, meaning, layers, layers, declare, List.findSome?_cons, List.findSome?_cons, hfind]

end Surroundings

/-! ## How names are bound -/

/-- The names in a term mean what the declarations around it say, and all of it lies in the innermost
scope. -/
def Term.Binds (around : Surroundings) (t : Term) (e : Expr) : Prop :=
  ∃ warnings, t.Elaborates around.meaning around.scope e warnings

/-- A variable is declared in the innermost scope, which has not declared its name yet. Its initial
value comes before the declaration. -/
structure Variable.Binds (around : Surroundings) (declared : Variable) (d : Declaration) : Prop where
  name : d.symbol.name = declared.name
  type : d.symbol.type = declared.type
  scope : d.symbol.scope = around.scope
  fresh : ∀ earlier ∈ around.inner.symbols, earlier.name ≠ declared.name
  initial : Option.Rel (Term.Binds around) declared.initial d.initial

mutual

/-- The names in a phrase are bound by the declarations around it, and then come those after it. The
scope of a block lies in the innermost one. -/
inductive Phrase.Binds (final : Scopes) :
    Surroundings → Phrase → Statement → Surroundings → Prop
  | declaration {around : Surroundings} {declared : Variable} {d : Declaration}
      (h : declared.Binds around d) :
      Binds final around (.declaration declared) (.declaration d) (around.declare d.symbol)
  | expression {around : Surroundings} {value : Term} {e : Expr} (h : value.Binds around e) :
      Binds final around (.expression value) (.expression e) around
  | returning {around : Surroundings} {value : Option Term} {e : Option Expr}
      (h : Option.Rel (Term.Binds around) value e) :
      Binds final around (.returning value) (.returning e around.scope nowhere) around
  | branch {around after : Surroundings} {condition : Term} {c : Expr} {yes : Phrase} {y : Statement}
      (hcondition : condition.Binds around c) (hyes : Binds final around yes y after) :
      Binds final around (.branch condition yes) (.branch c y none nowhere) after
  | choice {around middle after : Surroundings} {condition : Term} {c : Expr} {yes no : Phrase}
      {y n : Statement} (hcondition : condition.Binds around c)
      (hyes : Binds final around yes y middle) (hno : Binds final middle no n after) :
      Binds final around (.choice condition yes no) (.branch c y (some n) nowhere) after
  | loop {around after : Surroundings} {condition : Term} {c : Expr} {body : Phrase} {b : Statement}
      (hcondition : condition.Binds around c) (hbody : Binds final around body b after) :
      Binds final around (.loop condition body) (.loop c b nowhere) after
  | block {around within : Surroundings} {scope : ScopeId} {body : List Phrase} {b : List Statement}
      (hparent : final.parent scope = .ok (some around.scope))
      (hbody : AllBind final (around.enter scope) body b within) :
      Binds final around (.block body) (.block scope b nowhere) around

/-- The names in phrases one after the other. -/
inductive Phrase.AllBind (final : Scopes) :
    Surroundings → List Phrase → List Statement → Surroundings → Prop
  | nil {around : Surroundings} : AllBind final around [] [] around
  | cons {around middle after : Surroundings} {phrase : Phrase} {statement : Statement}
      {rest : List Phrase} {statements : List Statement}
      (h : Binds final around phrase statement middle)
      (hrest : AllBind final middle rest statements after) :
      AllBind final around (phrase :: rest) (statement :: statements) after

end

/-- Parameters are declared one after the other. -/
inductive Parameter.AllBind : Surroundings → List Parameter → Surroundings → Prop
  | nil {around : Surroundings} : AllBind around [] around
  | cons {around after : Surroundings} {parameter : Parameter} {symbol : Symbol}
      {rest : List Parameter}
      (h : Variable.Binds around ⟨false, parameter.type, parameter.name, none⟩ ⟨symbol, none⟩)
      (hrest : AllBind (around.declare symbol) rest after) :
      AllBind around (parameter :: rest) after

/-- The scope of the parameters lies in the outermost one, and that of the body in it. The name of a
function is declared after its parameters and before its body. -/
inductive Routine.Binds (final : Scopes) (around : Surroundings) :
    Routine → Function → Prop
  | mk {result : Ty} {name : String} {parameters : List Parameter} {body : List Phrase}
      {symbol : Symbol} {parameterScope scope : ScopeId} {b : List Statement}
      {parameterized within : Surroundings}
      (hparent : final.parent parameterScope = .ok (some around.scope))
      (hparameters : Parameter.AllBind (around.enter parameterScope) parameters parameterized)
      (hsymbol : Variable.Binds around ⟨false, .function result (parameters.map (·.type)), name, none⟩
        ⟨symbol, none⟩)
      (hinner : final.parent scope = .ok (some parameterScope))
      (hbody : Phrase.AllBind final
        (Surroundings.mk parameterized.inner (around.declare symbol).layers |>.enter scope) body b
        within) :
      Binds final around ⟨result, name, parameters, body⟩ ⟨symbol, parameterScope, scope, b, nowhere⟩

/-- An entry declares one name. -/
inductive Entry.Binds (final : Scopes) (around : Surroundings) : Entry → Item → Prop
  | global {declared : Variable} {d : Declaration} (h : declared.Binds around d) :
      Binds final around (.global declared) (.global d)
  | function {defined : Routine} {f : Function} (h : defined.Binds final around f) :
      Binds final around (.function defined) (.function f)

/-- The names in entries one after the other. -/
inductive Entry.AllBind (final : Scopes) : Surroundings → List Entry → List Item → Prop
  | nil {around : Surroundings} : AllBind final around [] []
  | cons {around : Surroundings} {entry : Entry} {item : Item} {rest : List Entry}
      {items : List Item} (h : entry.Binds final around item)
      (hrest : AllBind final (around.declare item.symbol) rest items) :
      AllBind final around (entry :: rest) (item :: items)

end AccumulatorC
