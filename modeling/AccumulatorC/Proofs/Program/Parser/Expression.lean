import AccumulatorC.Program.Parser.Expression
import AccumulatorC.Proofs.Program.Parser.Ensures
import AccumulatorC.Proofs.Program.WellFormed

/-!
# Expressions that are read are well-formed

Every rule that builds a typed expression from well-formed operands gives a well-formed one,
and the parsers of expressions build by these rules alone. They declare nothing, so an
expression is well-formed in the scopes that its parser has found.
-/

namespace AccumulatorC

/-! ## The rules -/

namespace Expr

variable {scopes : Scopes} {scope : ScopeId} {location : Location}

theorem requireValue_eq_ok {e : Expr} {value : Unit} :
    Checked.requireValue e = .ok value ↔ e.type.isVoid = false := by
  cases h : e.type.isVoid <;> simp [Checked.requireValue, h]

theorem ofTypes_eq_ok {α : Type} {result : Except TypeError α} {value : α} :
    Checked.ofTypes location result = .ok value ↔ result = .ok value := by
  cases result <;> simp [Checked.ofTypes]

theorem assigned_wellFormed {target value : Expr} {noted : Noted Expr}
    (htarget : target.WellFormed scopes scope) (hvalue : value.WellFormed scopes scope)
    (h : assigned scope location target value = .ok noted) :
    noted.value.WellFormed scopes scope := by
  unfold assigned at h
  split at h
  next hplace =>
    simp only [bind_eq_ok, ofTypes_eq_ok, pure_eq_ok] at h
    obtain ⟨_, -, warning, hassign, rfl⟩ := h
    exact .assign rfl rfl hplace rfl ⟨warning, hassign⟩ htarget hvalue
  next => cases h

theorem combined_wellFormed {op : BinaryOp} {left right : Expr} {noted : Noted Expr}
    (hleft : left.WellFormed scopes scope) (hright : right.WellFormed scopes scope)
    (h : combined scope location op left right = .ok noted) :
    noted.value.WellFormed scopes scope := by
  simp only [combined, bind_eq_ok, ofTypes_eq_ok, pure_eq_ok] at h
  obtain ⟨_, -, _, -, ⟨type, warning⟩, hcommon, rfl⟩ := h
  exact .binary rfl rfl ⟨warning, hcommon⟩ hleft hright

theorem applied_wellFormed {op : UnaryOp} {operand : Expr} {noted : Noted Expr}
    (hoperand : operand.WellFormed scopes scope)
    (hsteps : op.steps = true → operand.note.constant = false)
    (h : applied scope location op operand = .ok noted) :
    noted.value.WellFormed scopes scope := by
  -- The operators that keep the type share their rule.
  have hkeeping : op.keepsType = true → noted.value.WellFormed scopes scope := by
    intro hop
    cases op <;> cases hop
    all_goals
      simp only [applied, bind_eq_ok, requireValue_eq_ok, pure_eq_ok] at h
      obtain ⟨_, hvalue, rfl⟩ := h
      exact .keeping rfl rfl rfl hsteps rfl hvalue hoperand
  cases op with
  | addressOf =>
      simp only [applied] at h
      split at h
      next hplace =>
        cases h
        exact .addressOf rfl rfl hplace rfl hoperand
      next => cases h
  | deref =>
      simp only [applied] at h
      split at h
      next base hbase =>
        cases h
        refine .deref rfl rfl ?_ hoperand
        cases htype : operand.type <;> simp_all [Ty.base?]
      next => cases h
  | plus => exact hkeeping rfl
  | negate => exact hkeeping rfl
  | increment => exact hkeeping rfl
  | decrement => exact hkeeping rfl

/-- A place is no constant. -/
theorem not_constant_of_isPlace {e : Expr} (h : e.WellFormed scopes scope)
    (hplace : e.isPlace = true) : e.note.constant = false := by
  cases h with
  | name _ hconstant => exact hconstant
  | deref _ hconstant => exact hconstant
  | @keeping note op _ hop => cases op <;> cases hop <;> cases hplace
  | _ => cases hplace

theorem stepped_wellFormed {op : UnaryOp} {target : Expr} {noted : Noted Expr}
    (htarget : target.WellFormed scopes scope)
    (h : stepped scope location op target = .ok noted) :
    noted.value.WellFormed scopes scope := by
  unfold stepped at h
  split at h
  next hplace =>
    simp only [bind_eq_ok, pure_eq_ok] at h
    obtain ⟨neighbour, hneighbour, step, hstep, rfl⟩ := h
    show step.value.WellFormed scopes scope
    have hconstant := not_constant_of_isPlace htarget hplace
    exact assigned_wellFormed htarget
      (applied_wellFormed htarget (fun _ => hconstant) hneighbour) hstep
  next => cases h

theorem stepped_not_constant {op : UnaryOp} {target : Expr} {noted : Noted Expr}
    (h : stepped scope location op target = .ok noted) : noted.value.note.constant = false := by
  unfold stepped assigned at h
  split at h
  next hplace =>
    simp only [bind_eq_ok, pure_eq_ok] at h
    obtain ⟨_, -, _, ⟨_, -, _, -, rfl⟩, rfl⟩ := h
    rfl
  next => cases h

theorem steppedAfter_wellFormed {op back : UnaryOp} {target : Expr} {noted : Noted Expr}
    (htarget : target.WellFormed scopes scope)
    (h : steppedAfter scope location op back target = .ok noted) :
    noted.value.WellFormed scopes scope := by
  simp only [steppedAfter, bind_eq_ok, pure_eq_ok] at h
  obtain ⟨step, hstep, former, hformer, rfl⟩ := h
  show former.value.WellFormed scopes scope
  have hconstant : step.value.note.constant = false := stepped_not_constant hstep
  exact applied_wellFormed (stepped_wellFormed htarget hstep) (fun _ => hconstant) hformer

theorem bindValue_accepts {type : Ty} {value : Expr} {warnings : List (Located Conversion)}
    (h : Checked.bindValue type value = .ok warnings) : type.Accepts value.type := by
  simp only [Checked.bindValue, bind_eq_ok, ofTypes_eq_ok] at h
  obtain ⟨_, -, warning, hassign, -⟩ := h
  exact ⟨warning, hassign⟩

theorem bindValues_accepts {parameters : List Ty} {arguments : List Expr}
    {warnings : List (Located Conversion)} (hlength : arguments.length = parameters.length)
    (h : Checked.bindValues parameters arguments = .ok warnings) :
    List.Forall₂ (fun parameter (argument : Expr) => parameter.Accepts argument.type)
      parameters arguments := by
  induction parameters generalizing arguments warnings with
  | nil =>
      rw [List.length_eq_zero_iff.mp hlength]
      exact .nil
  | cons parameter parameters ih =>
      cases arguments with
      | nil => cases hlength
      | cons argument arguments =>
          simp only [Checked.bindValues, bind_eq_ok] at h
          obtain ⟨first, hfirst, rest, hrest, -⟩ := h
          exact .cons (bindValue_accepts hfirst) (ih (Nat.succ.inj hlength) hrest)

theorem called_wellFormed {function : Symbol} {result : Ty} {parameters : List Ty}
    {arguments : List Expr} {noted : Noted Expr}
    (htype : function.type = .function result parameters)
    (hvisible : scopes.Visible scope function)
    (harguments : ∀ argument ∈ arguments, argument.WellFormed scopes scope)
    (h : called scope location function result parameters arguments = .ok noted) :
    noted.value.WellFormed scopes scope := by
  unfold called at h
  split at h
  next hlength =>
    simp only [bind_eq_ok, pure_eq_ok] at h
    obtain ⟨warnings, hbind, rfl⟩ := h
    exact .call rfl rfl htype hvisible (bindValues_accepts hlength hbind) harguments
  next => cases h

end Expr

/-- A name that is found means a visible symbol. -/
theorem Scopes.lookup_visible {scopes : Scopes} (hwf : scopes.WellFormed) {id : ScopeId}
    {name : String} {symbol : Symbol} (h : scopes.lookup id name = .ok symbol) :
    scopes.Visible id symbol := by
  simp only [lookup, bind_eq_ok] at h
  obtain ⟨_, -, h⟩ := h
  split at h
  next found hfound =>
    rw [pure_eq_ok] at h
    subst h
    obtain ⟨holder, hchain, hfind⟩ := List.exists_of_findSome?_eq_some hfound
    obtain ⟨scope, hscope, hsymbol⟩ := Option.bind_eq_some_iff.mp hfind
    have hmem := List.mem_of_find?_eq_some hsymbol
    have hplace := (hwf.placed holder scope found hscope hmem).1
    subst hplace
    exact ⟨hchain, scope, hscope, hmem⟩
  next => simp at h

/-- A name that is found is that of the symbol. -/
theorem Scopes.lookup_name {scopes : Scopes} {id : ScopeId} {name : String} {symbol : Symbol}
    (h : scopes.lookup id name = .ok symbol) : symbol.name = name := by
  simp only [lookup, bind_eq_ok] at h
  obtain ⟨_, -, h⟩ := h
  split at h
  next found hfound =>
    rw [pure_eq_ok] at h
    subst h
    obtain ⟨holder, -, hfind⟩ := List.exists_of_findSome?_eq_some hfound
    obtain ⟨scope, -, hsymbol⟩ := Option.bind_eq_some_iff.mp hfind
    simpa using List.find?_some hsymbol
  next => simp at h

/-! ## The parsers -/

namespace Parser.Yields

variable {given : Setting}

/-- What the parsers of expressions give. -/
abbrev Readable (given : Setting) (e : Expr) : Prop := e.WellFormed given.scopes given.scope

theorem builtBy {α : Type} {rule : Checked (Noted α)} {post : α → Prop}
    (h : ∀ noted, rule = .ok noted → post noted.value) : Yields given (Parser.built rule) post :=
  (built rule).mono fun _ ⟨noted, hnoted, hvalue⟩ => hvalue ▸ h noted hnoted

theorem resolve (hwf : given.scopes.WellFormed) (name : String) (location : Location) :
    Yields given (Parser.resolve name location) (given.scopes.Visible given.scope) := by
  intro state hstate
  subst hstate
  simp only [Parser.resolve, ensures_bind, ensures_get]
  split
  next symbol hfound =>
    rw [ensures_pure]
    exact ⟨rfl, Scopes.lookup_visible hwf hfound⟩
  next => exact ensures_throw

theorem operatorTail {operand : Parser Expr} {operators : List (Mark × BinaryOp)}
    {start : Location} (hoperand : Yields given operand (Readable given)) (count : Nat)
    {left : Expr} (hleft : Readable given left) :
    Yields given (Parser.operatorTail operand operators start count left) (Readable given) := by
  induction count generalizing left with
  | zero => exact pure hleft
  | succ count ih =>
      refine peek.bind fun token _ => ?_
      split
      · refine next.bind fun _ _ => hoperand.bind fun right hright => ?_
        refine scope.bind fun here hhere => last.bind fun finish _ => ?_
        subst hhere
        refine (builtBy fun noted hnoted => ?_).bind fun whole hwhole => ih hwhole
        exact Expr.combined_wellFormed hleft hright hnoted
      · exact pure hleft

theorem operatorLevel {operand : Parser Expr} (hoperand : Yields given operand (Readable given))
    (operators : List (Mark × BinaryOp)) :
    Yields given (Parser.operatorLevel operand operators) (Readable given) :=
  peekLocation.bind fun _ _ => hoperand.bind fun _ hleft => bound.bind fun count _ =>
    operatorTail hoperand count hleft

theorem call (hwf : given.scopes.WellFormed) {nested : Parser Expr}
    (hnested : Yields given nested (Readable given)) (name : String) (start : Location) :
    Yields given (Parser.call nested name start) (Readable given) := by
  refine (resolve hwf name start).bind fun function hvisible => ?_
  split
  next result parameters htype =>
    have hrest : ∀ arguments, (∀ argument ∈ arguments, Readable given argument) →
        Yields given
          (do Parser.built (Expr.called (← Parser.scope) (.span start (← Parser.last)) function
            result parameters arguments))
          (Readable given) := by
      intro arguments harguments
      refine scope.bind fun here hhere => last.bind fun finish _ => ?_
      subst hhere
      exact builtBy fun noted hnoted => Expr.called_wellFormed htype hvisible harguments hnoted
    refine (expect _).bind fun _ _ => (optional _).bind fun _ _ => ite (fun _ => ?_) fun _ => ?_
    · exact hrest [] (by simp)
    · refine bound.bind fun count _ => (separated hnested count).bind fun arguments hall => ?_
      exact (expect _).bind fun _ _ => hrest arguments hall
  next => exact failAt

theorem use (hwf : given.scopes.WellFormed) (name : String) (location : Location) :
    Yields given (Parser.use name location) (Readable given) := by
  refine (resolve hwf name location).bind fun symbol hvisible => ite (fun _ => failAt) fun hkind => ?_
  refine scope.bind fun here hhere => pure ?_
  exact .name hhere rfl rfl (by simpa using hkind) hvisible

theorem literal {make : Note → Expr} {type : Ty} {location : Location}
    (h : ∀ note, note.scope = given.scope → note.constant = true → note.type = type →
      Readable given (make note)) :
    Yields given (Parser.literal make type location) (Readable given) :=
  scope.bind fun _ hhere => pure (h _ hhere rfl rfl)

theorem primary (hwf : given.scopes.WellFormed) {nested : Parser Expr}
    (hnested : Yields given nested (Readable given)) :
    Yields given (Parser.primary nested) (Readable given) := by
  refine next.bind fun token _ => ?_
  obtain ⟨token, location⟩ := token
  cases token with
  | integer value =>
      refine literal fun note hscope hconstant htype => .number hscope hconstant ?_
      rw [htype, Parser.integerType]
      split
      next hvalue => exact Or.inl ⟨rfl, hvalue⟩
      next => exact Or.inr rfl
  | character byte =>
      refine literal fun note hscope hconstant htype =>
        .number hscope hconstant (Or.inl ⟨htype, ?_⟩)
      have hbyte := byte.toNat_lt
      rw [UInt16.le_iff_toNat_le]
      simp only [UInt8.toNat_toUInt16, UInt16.reduceToNat]
      omega
  | string => exact literal fun note hscope hconstant htype => .string hscope hconstant htype
  | identifier name =>
      exact peek.bind fun _ _ =>
        ite (fun _ => call hwf hnested name location) fun _ => use hwf name location
  | mark m =>
      cases m with
      | openParen => exact hnested.bind fun _ hinner => (expect _).bind fun _ _ => pure hinner
      | _ => exact fail
  | _ => exact fail

theorem trailingSteps {start : Location} (count : Nat) {operand : Expr}
    (hoperand : Readable given operand) :
    Yields given (Parser.trailingSteps start count operand) (Readable given) := by
  induction count generalizing operand with
  | zero => exact pure hoperand
  | succ count ih =>
      refine peek.bind fun token _ => ?_
      split
      · refine next.bind fun _ _ => scope.bind fun here hhere => last.bind fun finish _ => ?_
        subst hhere
        refine (builtBy fun noted hnoted => ?_).bind fun whole hwhole => ih hwhole
        exact Expr.steppedAfter_wellFormed hoperand hnoted
      · exact pure hoperand

theorem trailing (hwf : given.scopes.WellFormed) {nested : Parser Expr}
    (hnested : Yields given nested (Readable given)) :
    Yields given (Parser.trailing nested) (Readable given) :=
  peekLocation.bind fun _ _ => (primary hwf hnested).bind fun _ hoperand =>
    bound.bind fun count _ => trailingSteps count hoperand

theorem applyLeading (op : UnaryOp) (start : Location) {operand : Expr}
    (hoperand : Readable given operand) :
    Yields given (Parser.applyLeading op start operand) (Readable given) := by
  refine scope.bind fun here hhere => last.bind fun finish _ => ?_
  subst hhere
  have hstepped : Yields given
      (Parser.built (Expr.stepped given.scope (.span start finish) op operand)) (Readable given) :=
    builtBy fun noted hnoted => Expr.stepped_wellFormed hoperand hnoted
  have happlied : op.steps = false → Yields given
      (Parser.built (Expr.applied given.scope (.span start finish) op operand)) (Readable given) :=
    fun hop => builtBy fun noted hnoted =>
      Expr.applied_wellFormed hoperand (by rw [hop]; rintro ⟨⟩) hnoted
  cases op <;> first | exact hstepped | exact happlied rfl

theorem leading (hwf : given.scopes.WellFormed) {nested : Parser Expr}
    (hnested : Yields given nested (Readable given)) (count : Nat) :
    Yields given (Parser.leading nested count) (Readable given) := by
  induction count with
  | zero => exact fail
  | succ count ih =>
      refine peekLocation.bind fun start _ => peek.bind fun token _ => ?_
      split
      next op _ => exact next.bind fun _ _ => ih.bind fun _ hoperand => applyLeading op start hoperand
      next => exact trailing hwf hnested

theorem operators (hwf : given.scopes.WellFormed) {nested : Parser Expr}
    (hnested : Yields given nested (Readable given)) (count : Nat) :
    Yields given (Parser.operators nested count) (Readable given) := by
  have hlevels : ∀ (levels : List (List (Mark × BinaryOp))) (operand : Parser Expr),
      Yields given operand (Readable given) →
      Yields given (levels.foldl Parser.operatorLevel operand) (Readable given) := by
    intro levels
    induction levels with
    | nil => exact fun _ h => h
    | cons level levels ih => exact fun operand h => ih _ (operatorLevel h level)
  exact hlevels _ _ (leading hwf hnested count)

theorem expressionWithin (hwf : given.scopes.WellFormed) (count : Nat) :
    Yields given (Parser.expressionWithin count) (Readable given) := by
  induction count with
  | zero => exact fail
  | succ count ih =>
      refine peekLocation.bind fun start _ => (operators hwf ih _).bind fun target htarget => ?_
      refine (optional _).bind fun _ _ => ite (fun _ => ?_) fun _ => pure htarget
      refine ih.bind fun value hvalue => scope.bind fun here hhere => last.bind fun finish _ => ?_
      subst hhere
      exact builtBy fun noted hnoted => Expr.assigned_wellFormed htarget hvalue hnoted

/-- An expression that is read is well-formed. -/
theorem expression (hwf : given.scopes.WellFormed) :
    Yields given Parser.expression (Readable given) :=
  bound.bind fun count _ => expressionWithin hwf count

end Parser.Yields

end AccumulatorC
