import AccumulatorC.Proofs.Program.Printing
import AccumulatorC.Proofs.Program.StaticScopes

/-!
# What is written for a program

What is written for a typed tree elaborates to that tree again, with the same warnings, and it is
spelled by the tokens that are written for it. Symbols keep the names and types they were declared
with, the parameters of a function are the symbols of their scope, and a statement takes an `else`
after it exactly when the phrase it comes from does.
-/

namespace AccumulatorC

/-! ## It elaborates to the same tree -/

/-- Names mean symbols of those names. -/
def MeansByName (meaning : String → Option Symbol) : Prop :=
  ∀ text symbol, meaning text = some symbol → symbol.name = text

/-- A symbol is found by its name, so printing its name leads back to it. -/
theorem Parser.Setting.meansByName (given : Parser.Setting) : MeansByName given.meaning := by
  intro text symbol h
  unfold Setting.meaning at h
  cases hlookup : given.scopes.lookup given.scope text with
  | error stop =>
      rw [hlookup] at h
      cases h
  | ok found =>
      rw [hlookup] at h
      cases h
      exact Scopes.lookup_name hlookup

namespace Term.Elaborates

variable {meaning : String → Option Symbol} {scope : ScopeId} {t : Term} {e : Expr}
  {warnings : List Conversion}

/-- What is written for an expression is never the neighbouring value of a place. -/
theorem neighbour?_eq_none (h : t.Elaborates meaning scope e warnings) : e.neighbour? = none := by
  cases h with
  | trailing step => cases step <;> rfl
  | signed hop => rcases hop with rfl | rfl <;> rfl
  | _ => rfl

/-- The neighbouring value of a place is assigned to it by a step. -/
theorem term_step (note : Note) {inner : Note} (step : Step) (hplace : e.isPlace = true) :
    (Expr.assign note e (.unary inner step.op e)).term = .leading step.op e.term := by
  have hneighbour : (Expr.unary inner step.op e).neighbour? = some step.op := by
    cases step <;> exact if_pos hplace
  rw [Expr.term, hneighbour]

theorem apply_back (step : Step) (t : Term) :
    Term.apply step.back (.leading step.op t) = .trailing step t := by
  cases step <;> rfl

theorem terms_map {α : Type} (f : α → Expr) (list : List α) :
    Expr.terms (list.map f) = list.map fun item => (f item).term := by
  induction list with
  | nil => rfl
  | cons item rest ih => rw [List.map_cons, List.map_cons, Expr.terms, ih]

/-- An expression that is printed elaborates to itself. -/
theorem printed (hmeaning : MeansByName meaning) (h : t.Elaborates meaning scope e warnings) :
    e.term.Elaborates meaning scope e warnings := by
  induction h with
  | integer value => exact .integer value
  | character byte =>
      have hnote : (if byte.toUInt16 ≤ 0xff then Ty.char else .int) = .char :=
        if_pos (by rw [UInt16.le_iff_toNat_le]; exact Nat.le_of_lt_succ byte.toNat_lt)
      have hinteger := @Term.Elaborates.integer meaning scope byte.toUInt16
      rw [hnote] at hinteger
      exact hinteger
  | string bytes => exact .string bytes
  | name hname hvariable =>
      rw [Expr.term, hmeaning _ _ hname]
      exact .name hname hvariable
  | @call text symbol result parameters arguments warnings hname htype harguments hstores ih =>
      rw [Expr.term, terms_map, hmeaning _ _ hname]
      have hagain := @Term.Elaborates.call meaning scope text symbol result parameters
        (arguments.map fun argument => (argument.2.1.term, argument.2)) warnings hname htype
        (by
          intro argument hargument
          obtain ⟨own, hown, rfl⟩ := List.mem_map.mp hargument
          exact ih own hown)
        (by rw [List.map_map]; exact hstores)
      rw [List.map_map, List.map_map, List.flatMap_map] at hagain
      exact hagain
  | trailing step hplace hscalar h ih =>
      rw [Expr.term, term_step _ step hplace, apply_back]
      exact .trailing step hplace hscalar ih
  | stepping step hplace hscalar h ih =>
      rw [term_step _ step hplace]
      exact .stepping step hplace hscalar ih
  | addressOf hplace h ih => exact .addressOf hplace ih
  | deref htype h ih => exact .deref htype ih
  | signed hop hvalue h ih =>
      rcases hop with rfl | rfl
      · exact .signed (.inl rfl) hvalue ih
      · exact .signed (.inr rfl) hvalue ih
  | binary op hcommon hleft hright ihleft ihright => exact .binary op hcommon ihleft ihright
  | assign hplace hassign htarget hvalue ihtarget ihvalue =>
      rw [Expr.term, hvalue.neighbour?_eq_none]
      exact .assign hplace hassign ihtarget ihvalue

end Term.Elaborates

/-! ### Declarations -/

/-- A declared symbol is written as it was declared. -/
theorem Scopes.variable_of_declare {scopes after : Scopes} {id : ScopeId} {name : String}
    {type : Ty} {external : Bool} {symbol : Symbol}
    (h : scopes.declare id name nowhere type external = .ok (symbol, after)) (initial : Option Expr) :
    Declaration.variable ⟨symbol, initial⟩ = ⟨external, type, name, initial.map Expr.term⟩ := by
  obtain ⟨scope, storage, frame, -, -, hallot, rfl, -⟩ := Scopes.declare_eq_ok h
  have hexternal : decide (storage = .external) = external := by
    rcases Scopes.allot_eq_ok hallot with ⟨rfl, rfl, -⟩ | ⟨rfl, -, rfl, -⟩ | ⟨rfl, -, rfl, -⟩ <;> rfl
  rw [← hexternal]
  rfl

namespace Variable.Elaborates

variable {given after : Parser.Setting} {declared : Variable} {d : Declaration}
  {warnings : List Conversion}

theorem variable_eq (h : declared.Elaborates given d after warnings) :
    d.variable = { declared with initial := d.initial.map Expr.term } := by
  cases h with
  | plain _ hdeclare => exact Scopes.variable_of_declare hdeclare none
  | initial _ _ _ hdeclare => exact Scopes.variable_of_declare hdeclare _

/-- A declaration that is printed elaborates to itself. -/
theorem printed (h : declared.Elaborates given d after warnings) :
    d.variable.Elaborates given d after warnings := by
  rw [h.variable_eq]
  cases h with
  | plain hvalue hdeclare => exact .plain hvalue hdeclare
  | initial hvalue hassign hconstant hdeclare =>
      exact .initial (hvalue.printed given.meansByName) hassign hconstant hdeclare

end Variable.Elaborates

/-! ### Statements -/

mutual

theorem Phrase.Elaborates.printed : ∀ {given after : Parser.Setting} {phrase : Phrase}
    {statement : Statement} {warnings : List Conversion},
    phrase.Elaborates given statement after warnings →
      statement.phrase.Elaborates given statement after warnings
  | _, _, _, _, _, .declaration h => .declaration h.printed
  | given, _, _, _, _, .expression h hvalue => .expression (h.printed given.meansByName) hvalue
  | _, _, _, _, _, .returnNothing hresult => .returnNothing hresult
  | given, _, _, _, _, .returnValue h hassign => .returnValue (h.printed given.meansByName) hassign
  | given, _, _, _, _, .branch hcondition hvalue hyes =>
      .branch (hcondition.printed given.meansByName) hvalue hyes.printed
  | given, _, _, _, _, .choice hcondition hvalue hyes hno =>
      .choice (hcondition.printed given.meansByName) hvalue hyes.printed hno.printed
  | given, _, _, _, _, .loop hcondition hvalue hbody =>
      .loop (hcondition.printed given.meansByName) hvalue hbody.printed
  | _, _, _, _, _, .block henter hbody => .block henter hbody.printed

theorem Phrase.AllElaborate.printed : ∀ {given after : Parser.Setting} {phrases : List Phrase}
    {statements : List Statement} {warnings : List Conversion},
    AllElaborate given phrases statements after warnings →
      AllElaborate given (Statement.phrases statements) statements after warnings
  | _, _, _, _, _, .nil => .nil
  | _, _, _, _, _, .cons h hrest => .cons h.printed hrest.printed

end

theorem Phrase.Elaborates.isDeclaration_eq {given after : Parser.Setting} {phrase : Phrase}
    {statement : Statement} {warnings : List Conversion}
    (h : phrase.Elaborates given statement after warnings) :
    statement.phrase.isDeclaration = phrase.isDeclaration := by
  cases h <;> rfl

/-- What is written takes an `else` after it if what was read did. -/
theorem Phrase.Elaborates.isOpen_eq {given after : Parser.Setting} {phrase : Phrase}
    {statement : Statement} {warnings : List Conversion}
    (h : phrase.Elaborates given statement after warnings) :
    statement.phrase.isOpen = phrase.isOpen := by
  match h with
  | .choice _ _ _ hno => exact hno.isOpen_eq
  | .loop _ _ hbody => exact hbody.isOpen_eq
  | .branch _ _ _ => rfl
  | .declaration _ => rfl
  | .expression _ _ => rfl
  | .returnNothing _ => rfl
  | .returnValue _ _ => rfl
  | .block _ _ => rfl

/-! ### Functions -/

namespace Scopes

variable {scopes after : Scopes} {id : ScopeId}

/-- The parameters of a scope are those that were declared while it was the innermost one. -/
theorem Grows.parameters_eq {current : ScopeId} (h : scopes.Grows after current)
    (hid : id < scopes.list.length) (hne : id ≠ current) :
    after.parameters id = scopes.parameters id := by
  rw [parameters, parameters, h.other id hid hne]

theorem parameters_of_enter {parent : ScopeId} (h : scopes.enter parent = .ok (id, after)) :
    after.parameters id = [] := by
  obtain ⟨-, rfl, rfl⟩ := enter_eq_ok h
  simp [parameters, Scope.inOrder]

theorem parameters_of_reserve {bytes : Nat} (h : scopes.reserve id bytes = .ok after) :
    after.parameters id = scopes.parameters id := by
  obtain ⟨scope, hscope, -, rfl⟩ := reserve_eq_ok h
  simp [parameters, list_set, hscope, Scope.inOrder]

theorem parameters_of_declare {name : String} {type : Ty} {external : Bool} {symbol : Symbol}
    (h : scopes.declare id name nowhere type external = .ok (symbol, after)) :
    after.parameters id = scopes.parameters id ++ [⟨type, name⟩] := by
  obtain ⟨scope, storage, frame, hscope, -, -, rfl, rfl⟩ := declare_eq_ok h
  simp [parameters, list_set, hscope, Scope.inOrder, Symbol.parameter]

end Scopes

theorem Parameter.AllElaborate.parameters_eq {scope : ScopeId} {scopes after : Scopes}
    {parameters : List Parameter} (h : AllElaborate scope scopes parameters after) :
    after.parameters scope = scopes.parameters scope ++ parameters := by
  induction h with
  | nil => exact (List.append_nil _).symm
  | cons _ hdeclare _ ih =>
      rw [ih, Scopes.parameters_of_declare hdeclare, List.append_assoc, List.singleton_append]

namespace Routine.Elaborates

variable {scopes after final : Scopes} {defined : Routine} {f : Function}
  {warnings : List Conversion}

/-- The parameters are found in their scope, however the global one grows. -/
theorem routine_eq (h : defined.Elaborates scopes f after warnings)
    (hfinal : after.Grows final globalScope) :
    f.routine final = { defined with body := Statement.phrases f.body } := by
  obtain ⟨henter, hparameters, hreserve, hdeclare, hopen, hbody⟩ := h
  -- The scope of the parameters is the innermost one only while they are declared.
  have hparameterized := hparameters.parameters_eq
  rw [Scopes.parameters_of_enter henter, List.nil_append,
    ← Scopes.parameters_of_reserve hreserve] at hparameterized
  have hknown := (hparameters.grows.trans (Scopes.grows_reserve hreserve)).length_le
  have hgrows := (Scopes.grows_declare hdeclare).trans
    ((Scopes.grows_enter hopen hbody.grows globalScope).trans hfinal)
  obtain ⟨hglobal, rfl, rfl⟩ := Scopes.enter_eq_ok henter
  rw [List.length_append, List.length_singleton] at hknown
  obtain ⟨_, _, _, -, -, -, rfl, -⟩ := Scopes.declare_eq_ok hdeclare
  rw [Function.routine, hgrows.parameters_eq (Nat.lt_of_succ_le hknown) (Nat.ne_of_gt hglobal),
    hparameterized]
  rfl

theorem printed (h : defined.Elaborates scopes f after warnings)
    (hfinal : after.Grows final globalScope) :
    (f.routine final).Elaborates scopes f after warnings := by
  rw [h.routine_eq hfinal]
  obtain ⟨henter, hparameters, hreserve, hdeclare, hopen, hbody⟩ := h
  exact .mk henter hparameters hreserve hdeclare hopen hbody.printed

end Routine.Elaborates

/-! ### Sources -/

theorem Entry.Elaborates.printed {scopes after final : Scopes} {entry : Entry} {item : Item}
    {warnings : List Conversion} (h : entry.Elaborates scopes item after warnings)
    (hfinal : after.Grows final globalScope) :
    (item.entry final).Elaborates scopes item after warnings := by
  cases h with
  | global h => exact .global h.printed
  | function h => exact .function (h.printed hfinal)

/-- The entries of a source, printed, elaborate to the same items. -/
theorem Entry.AllElaborate.printed {scopes after final : Scopes} {entries : List Entry}
    {items : List Item} {warnings : List Conversion}
    (h : AllElaborate scopes entries items after warnings) (hfinal : after.Grows final globalScope) :
    AllElaborate scopes (items.map (Item.entry final)) items after warnings := by
  induction h with
  | nil => exact .nil
  | cons h hrest ih => exact .cons (h.printed (hrest.grows.trans hfinal)) (ih hfinal)

/-! ## It is spelled by its tokens -/

theorem Term.writeAlone_spelling (t : Term) : t.Spelling loosestLevel t.writeAlone :=
  have h := write_spelling lavish_encloses t
  h.mono h.le (Nat.le_refl _)

/-- A type has one spelling. -/
theorem Ty.Spelling.write_eq {type : Ty} {tokens : List Token} (h : type.Spelling tokens) :
    type.write = tokens := by
  induction h with
  | pointer h ih => rw [write, ih]
  | _ => rfl

theorem Ty.Spelling.written {type : Ty} {tokens : List Token} (h : type.Spelling tokens) :
    type.Spelling type.write := h.write_eq ▸ h

theorem Variable.write_spelling {declared : Variable} {tokens : List Token}
    (h : declared.type.Spelling tokens) : declared.Spelling declared.write := by
  refine .mk h.written ?_
  cases declared.initial with
  | none => exact .none
  | some value => exact .some value.writeAlone_spelling

theorem Variable.Spelling.printed {declared : Variable} {tokens : List Token}
    (h : declared.Spelling tokens) {given after : Parser.Setting} {d : Declaration}
    {warnings : List Conversion} (he : declared.Elaborates given d after warnings) :
    d.variable.Spelling d.variable.write := by
  rw [he.variable_eq]
  obtain ⟨htype, -⟩ := h
  exact write_spelling htype

mutual

theorem Phrase.Spelling.printed : ∀ {phrase : Phrase} {tokens : List Token},
    phrase.Spelling tokens → ∀ {given after : Parser.Setting} {statement : Statement}
      {warnings : List Conversion}, phrase.Elaborates given statement after warnings →
        statement.phrase.Spelling statement.phrase.write
  | _, _, .declaration h, _, _, _, _, .declaration he => .declaration (h.printed he)
  | _, _, .expression _, _, _, _, _, .expression _ _ => .expression (Term.writeAlone_spelling _)
  | _, _, .returnNothing, _, _, _, _, .returnNothing _ => .returnNothing
  | _, _, .returnValue _, _, _, _, _, .returnValue _ _ => .returnValue (Term.writeAlone_spelling _)
  | _, _, .branch _ hyes hstatement, _, _, _, _, .branch _ _ he =>
      .branch (Term.writeAlone_spelling _) (hyes.printed he) (he.isDeclaration_eq.trans hstatement)
  | _, _, .choice _ hyes hstatement hclosed hno hstatement', _, _, _, _, .choice _ _ he he' =>
      .choice (Term.writeAlone_spelling _) (hyes.printed he)
        (he.isDeclaration_eq.trans hstatement) (he.isOpen_eq.trans hclosed) (hno.printed he')
        (he'.isDeclaration_eq.trans hstatement')
  | _, _, .loop _ hbody hstatement, _, _, _, _, .loop _ _ he =>
      .loop (Term.writeAlone_spelling _) (hbody.printed he) (he.isDeclaration_eq.trans hstatement)
  | _, _, .block hbody, _, _, _, _, .block _ he => .block (hbody.printed he)

theorem Phrase.AllSpelling.printed : ∀ {phrases : List Phrase} {tokens : List Token},
    AllSpelling phrases tokens → ∀ {given after : Parser.Setting} {statements : List Statement}
      {warnings : List Conversion}, AllElaborate given phrases statements after warnings →
        AllSpelling (Statement.phrases statements) (Phrase.writeAll (Statement.phrases statements))
  | _, _, .nil, _, _, _, _, .nil => .nil
  | _, _, .cons h hrest, _, _, _, _, .cons he herest => .cons (h.printed he) (hrest.printed herest)

end

theorem Phrase.writeAll_spelling {phrases : List Phrase}
    (h : ∀ phrase ∈ phrases, phrase.Spelling phrase.write) :
    AllSpelling phrases (writeAll phrases) := by
  induction phrases with
  | nil => exact .nil
  | cons phrase rest ih =>
      obtain ⟨hphrase, hrest⟩ := List.forall_mem_cons.mp h
      exact .cons hphrase (ih hrest)

theorem Parameter.Spelling.written {parameter : Parameter} {tokens : List Token}
    (h : parameter.Spelling tokens) : parameter.Spelling parameter.write := by
  obtain ⟨htype⟩ := h
  exact .mk htype.written

theorem Routine.write_spelling {defined : Routine}
    (hresult : defined.result.Spelling defined.result.write)
    (hparameters : ∀ parameter ∈ defined.parameters, parameter.Spelling parameter.write)
    (hbody : Phrase.AllSpelling defined.body (Phrase.writeAll defined.body)) :
    defined.Spelling defined.write := by
  obtain ⟨result, name, parameters, body⟩ := defined
  have h := @Spelling.mk result name (parameters.map fun parameter => (parameter, parameter.write))
    body _ _ hresult (by simpa using hparameters) hbody
  rw [List.map_map, List.map_map] at h
  simpa [write, Function.comp_def] using h

theorem Routine.Spelling.printed {defined : Routine} {tokens : List Token}
    (h : defined.Spelling tokens) {scopes after final : Scopes} {f : Function}
    {warnings : List Conversion} (he : defined.Elaborates scopes f after warnings)
    (hfinal : after.Grows final globalScope) :
    (f.routine final).Spelling (f.routine final).write := by
  rw [he.routine_eq hfinal]
  obtain ⟨hresult, hparameters, hbody⟩ := h
  obtain ⟨-, -, -, -, -, hbodies⟩ := he
  refine write_spelling hresult.written ?_ (hbody.printed hbodies)
  intro parameter hparameter
  obtain ⟨part, hpart, rfl⟩ := List.mem_map.mp hparameter
  exact (hparameters part hpart).written

theorem Entry.Spelling.printed {entry : Entry} {tokens : List Token} (h : entry.Spelling tokens)
    {scopes after final : Scopes} {item : Item} {warnings : List Conversion}
    (he : entry.Elaborates scopes item after warnings) (hfinal : after.Grows final globalScope) :
    (item.entry final).Spelling (item.entry final).write := by
  cases he with
  | global he => cases h with | global h => exact .global (h.printed he)
  | function he => cases h with | function h => exact .function (h.printed he hfinal)

theorem Entry.AllSpelling.printed {entries : List Entry} {tokens : List Token}
    (h : AllSpelling entries tokens) {scopes after final : Scopes} {items : List Item}
    {warnings : List Conversion} (he : AllElaborate scopes entries items after warnings)
    (hfinal : after.Grows final globalScope) :
    AllSpelling (items.map (Item.entry final)) (writeAll (items.map (Item.entry final))) := by
  induction he generalizing tokens with
  | nil => exact .nil
  | cons he hrest ih =>
      obtain _ | ⟨h, hothers⟩ := h
      exact .cons (h.printed he (hrest.grows.trans hfinal)) (ih hothers hfinal)

end AccumulatorC
