import AccumulatorC.Proofs.Program.Conversions
import AccumulatorC.Proofs.Program.Parser.Unit

/-!
# Warnings of conversions

The warnings of a program that is read are those that its expressions, declarations and statements
give rise to, and no others. So a parser is spoken of by the set of warnings before and after it: what
it reads accounts for exactly those that it adds.
-/

namespace AccumulatorC

/-! ## The rules -/

/-- The warnings of storing a value are those of one storing. -/
theorem Checked.bindValue_warnings {type : Ty} {value : Expr} {warnings : List (Located Conversion)}
    (h : bindValue type value = .ok warnings) :
    warnings = Storing.warnings ⟨type, value.type, value.location⟩ := by
  simp only [bindValue, bind_eq_ok, Expr.ofTypes_eq_ok, pure_eq_ok] at h
  obtain ⟨_, -, warning, hassign, rfl⟩ := h
  simp only [Storing.warnings, hassign]

theorem Checked.bindValues_warnings {parameters : List Ty} {arguments : List Expr}
    {warnings : List (Located Conversion)} (h : bindValues parameters arguments = .ok warnings) :
    warnings = (List.zipWith
      (fun parameter (argument : Expr) => Storing.mk parameter argument.type argument.location)
      parameters arguments).flatMap Storing.warnings := by
  induction parameters generalizing arguments warnings with
  | nil =>
      cases h
      rfl
  | cons parameter parameters ih =>
      cases arguments with
      | nil =>
          cases h
          rfl
      | cons argument arguments =>
          simp only [bindValues, bind_eq_ok, pure_eq_ok] at h
          obtain ⟨first, hfirst, rest, hrest, rfl⟩ := h
          rw [bindValue_warnings hfirst, ih hrest]
          rfl

/-- What was built gives rise to the warnings of the rule and to those of its parts. -/
def Noted.Adds (parts : Set (Located Conversion)) (noted : Noted Expr) : Prop :=
  noted.value.conversions = {w | w ∈ noted.warnings} ∪ parts

namespace Expr

variable {scope : ScopeId} {location : Location}

theorem assigned_adds {target value : Expr} {noted : Noted Expr}
    (h : assigned scope location target value = .ok noted) :
    noted.Adds (target.conversions ∪ value.conversions) := by
  unfold assigned at h
  split at h
  next =>
    simp only [bind_eq_ok, ofTypes_eq_ok, pure_eq_ok] at h
    obtain ⟨_, -, warning, hassign, rfl⟩ := h
    rw [Noted.Adds, conversions_assign]
    simp only [Storing.warnings, hassign]
  next => cases h

theorem combined_adds {op : BinaryOp} {left right : Expr} {noted : Noted Expr}
    (h : combined scope location op left right = .ok noted) :
    noted.Adds (left.conversions ∪ right.conversions) := by
  simp only [combined, bind_eq_ok, ofTypes_eq_ok, pure_eq_ok] at h
  obtain ⟨_, -, _, -, ⟨type, warning⟩, hcommon, rfl⟩ := h
  rw [Noted.Adds, conversions_binary]
  simp only [warnings, hcommon]

/-- An operator before its operand gives rise to no warnings of its own. -/
theorem applied_adds {op : UnaryOp} {operand : Expr} {noted : Noted Expr}
    (h : applied scope location op operand = .ok noted) :
    noted.warnings = [] ∧ noted.value.conversions = operand.conversions := by
  cases op with
  | addressOf =>
      simp only [applied] at h
      split at h <;> cases h
      exact ⟨rfl, conversions_unary⟩
  | deref =>
      simp only [applied] at h
      split at h <;> cases h
      exact ⟨rfl, conversions_unary⟩
  | _ =>
      simp only [applied, bind_eq_ok, pure_eq_ok] at h
      obtain ⟨_, -, rfl⟩ := h
      exact ⟨rfl, conversions_unary⟩

theorem stepped_adds {op : UnaryOp} {target : Expr} {noted : Noted Expr}
    (h : stepped scope location op target = .ok noted) : noted.Adds target.conversions := by
  unfold stepped at h
  split at h
  next =>
    simp only [bind_eq_ok, pure_eq_ok] at h
    obtain ⟨neighbour, hneighbour, step, hstep, rfl⟩ := h
    obtain ⟨hnone, hsame⟩ := applied_adds hneighbour
    have hadds := assigned_adds hstep
    rw [hsame, Set.union_self] at hadds
    rwa [Noted.Adds, hnone, List.nil_append]
  next => cases h

theorem steppedAfter_adds {op back : UnaryOp} {target : Expr} {noted : Noted Expr}
    (h : steppedAfter scope location op back target = .ok noted) : noted.Adds target.conversions := by
  simp only [steppedAfter, bind_eq_ok, pure_eq_ok] at h
  obtain ⟨step, hstep, former, hformer, rfl⟩ := h
  obtain ⟨hnone, hsame⟩ := applied_adds hformer
  rw [Noted.Adds, hnone, hsame, List.append_nil]
  exact stepped_adds hstep

theorem called_adds {function : Symbol} {result : Ty} {parameters : List Ty}
    {arguments : List Expr} {noted : Noted Expr}
    (htype : function.type = .function result parameters)
    (h : called scope location function result parameters arguments = .ok noted) :
    noted.Adds {w | ∃ argument ∈ arguments, w ∈ argument.conversions} := by
  unfold called at h
  split at h
  next =>
    simp only [bind_eq_ok, pure_eq_ok] at h
    obtain ⟨found, hbind, rfl⟩ := h
    rw [Noted.Adds, conversions_call, Checked.bindValues_warnings hbind]
    simp only [warnings, stores, Symbol.parameters, htype]
  next => cases h

end Expr

namespace Parser

variable {α β : Type}

/-! ## Warnings before and after a parser -/

/-- In a function with a result, if it is read in one, and with certain warnings so far, the parser
keeps the result, and what it gives and the warnings after it meet the postcondition. -/
def Notes (result : Option Ty) (before : Set (Located Conversion)) (parser : Parser α)
    (post : α → Set (Located Conversion) → Prop) : Prop :=
  ∀ state : ParseState, state.result = result → {w | w ∈ state.warnings} = before →
    Ensures parser state fun value after =>
      after.result = result ∧ post value {w | w ∈ after.warnings}

/-- The parser notes nothing, and what it gives meets the postcondition. -/
def Silent (result : Option Ty) (parser : Parser α) (post : α → Prop) : Prop :=
  ∀ before, Notes result before parser fun value after => after = before ∧ post value

namespace Notes

variable {result : Option Ty} {before parts : Set (Located Conversion)} {parser : Parser α}
  {post other : α → Set (Located Conversion) → Prop}

theorem mono (h : Notes result before parser post)
    (himp : ∀ value after, post value after → other value after) :
    Notes result before parser other := fun state hresult hbefore =>
  (h state hresult hbefore).mono fun value _ hafter => ⟨hafter.1, himp value _ hafter.2⟩

theorem pure {value : α} (h : post value before) : Notes result before (Pure.pure value) post :=
  fun _ hresult hbefore => ensures_pure.mpr ⟨hresult, hbefore ▸ h⟩

/-- The second of two parsers goes on with the warnings that the first one leaves. -/
theorem bind {second : α → Parser β} {last : β → Set (Located Conversion) → Prop}
    (h : Notes result before parser post)
    (hsecond : ∀ value middle, post value middle → Notes result middle (second value) last) :
    Notes result before (parser >>= second) last := fun state hresult hbefore =>
  ensures_bind.mpr <| (h state hresult hbefore).mono fun value after hafter =>
    hsecond value _ hafter.2 after hafter.1 rfl

theorem map {f : α → β} {last : β → Set (Located Conversion) → Prop}
    (h : Notes result before parser fun value => last (f value)) :
    Notes result before (f <$> parser) last := fun state hresult hbefore =>
  ensures_map.mpr (h state hresult hbefore)

theorem ite {c : Prop} [Decidable c] {yes no : Parser α} (hyes : c → Notes result before yes post)
    (hno : ¬ c → Notes result before no post) :
    Notes result before (if c then yes else no) post := by
  split
  next hc => exact hyes hc
  next hc => exact hno hc

/-- A parser that fails leaves nothing to say of warnings. -/
theorem failAt {cause : ParseError} {location : Location} :
    Notes result before (Parser.failAt cause location : Parser α) post :=
  fun _ _ _ => ensures_failAt

theorem fail {cause : ParseError} : Notes result before (Parser.fail cause : Parser α) post :=
  fun _ _ _ => ensures_fail

theorem failThen {cause : ParseError} {second : α → Parser β}
    {last : β → Set (Located Conversion) → Prop} :
    Notes result before (Parser.fail cause >>= second) last := fun _ _ _ => by
  simp

theorem failAtThen {cause : ParseError} {location : Location} {second : α → Parser β}
    {last : β → Set (Located Conversion) → Prop} :
    Notes result before (Parser.failAt cause location >>= second) last := fun _ _ _ => by
  simp

end Notes

namespace Silent

variable {result : Option Ty} {before : Set (Located Conversion)} {parser : Parser α}
  {post : α → Prop}

/-- Parsers that keep the warnings and the result. -/
theorem of_kept (h : ∀ state, Ensures parser state fun value after =>
    after.result = state.result ∧ after.warnings = state.warnings ∧ post value) :
    Silent result parser post := by
  rintro _ state rfl rfl
  refine (h state).mono ?_
  rintro value after ⟨hresult, hwarnings, hpost⟩
  exact ⟨hresult, by rw [hwarnings], hpost⟩

/-- Another parser behind one that notes nothing. -/
theorem andThen {second : α → Parser β} {last : β → Set (Located Conversion) → Prop}
    (h : Silent result parser post)
    (hsecond : ∀ value, post value → Notes result before (second value) last) :
    Notes result before (parser >>= second) last :=
  (h before).bind fun value _ hmiddle => hmiddle.1 ▸ hsecond value hmiddle.2

theorem get : Silent result MonadState.get fun state => state.result = result := by
  rintro _ state rfl rfl
  exact ensures_get.mpr ⟨rfl, rfl, rfl⟩

theorem last : Silent result Parser.last fun _ => True :=
  of_kept fun state => by simp [Parser.last]

theorem scope : Silent result Parser.scope fun _ => True :=
  of_kept fun state => by simp [Parser.scope]

theorem bound : Silent result Parser.bound fun _ => True :=
  of_kept fun state => by simp [Parser.bound]

theorem peek : Silent result Parser.peek fun _ => True :=
  of_kept fun state => by simp [Parser.peek]

theorem peekLocation : Silent result Parser.peekLocation fun _ => True :=
  of_kept fun state => by simp [Parser.peekLocation]

theorem next : Silent result Parser.next fun _ => True := by
  refine of_kept fun state => ?_
  simp only [Parser.next, ensures_bind, ensures_get]
  split
  · simp
  · exact ensures_fail

theorem optional (token : Token) : Silent result (Parser.optional token) fun _ => True := fun _ =>
  peek.andThen fun _ _ => .ite (fun _ => next.andThen fun _ _ => .pure ⟨rfl, trivial⟩) fun _ =>
    .pure ⟨rfl, trivial⟩

theorem expect (token : Token) : Silent result (Parser.expect token) fun _ => True := by
  refine fun _ => peek.andThen fun found _ => ?_
  cases found with
  | none => exact .fail
  | some _ =>
      exact next.andThen fun _ _ => .ite (fun _ => .fail) fun _ => .pure ⟨rfl, trivial⟩

theorem identifier : Silent result Parser.identifier fun _ => True := by
  refine fun _ => next.andThen fun token _ => ?_
  split
  · exact .pure ⟨rfl, trivial⟩
  · exact .fail

theorem stars (count : Nat) (type : Ty) : Silent result (Parser.stars count type) fun _ => True := by
  induction count generalizing type with
  | zero => exact fun _ => .pure ⟨rfl, trivial⟩
  | succ count ih =>
      exact fun _ => (optional _).andThen fun _ _ => .ite (fun _ => ih _ _) fun _ =>
        .pure ⟨rfl, trivial⟩

theorem type : Silent result Parser.type fun _ => True := by
  refine fun _ => next.andThen fun token _ => ?_
  split
  · exact bound.andThen fun count _ => stars count _ _
  · exact bound.andThen fun count _ => stars count _ _
  · exact bound.andThen fun count _ => stars count _ _
  · exact .fail

theorem checked (rule : Checked α) : Silent result (Parser.checked rule) (rule = .ok ·) := by
  intro before
  cases rule with
  | ok value => exact .pure ⟨rfl, rfl⟩
  | error located => exact .failAt

theorem requireVariable (type : Ty) (name : Located String) :
    Silent result (Parser.requireVariable type name) fun _ => True := fun _ =>
  .ite (fun _ => .failAt) fun _ => .pure ⟨rfl, trivial⟩

theorem withScopes {change : Scopes → Except Breakdown (α × Scopes)} :
    Silent result (Parser.withScopes change) fun _ => True := by
  refine of_kept fun state => ?_
  simp only [Parser.withScopes, ensures_bind, ensures_get]
  split
  · simp
  · exact ensures_throw

theorem moveTo (scope : ScopeId) :
    Silent result (modify fun state => { state with scope }) fun _ => True :=
  of_kept fun state => by simp

theorem declare (scope : ScopeId) (name : Located String) (type : Ty) (external : Bool) :
    Silent result (Parser.declare scope name type external) (·.type = type) := by
  refine of_kept fun state => ?_
  simp only [Parser.declare, ensures_bind, ensures_get]
  split
  next symbol scopes hdeclare =>
    obtain ⟨_, _, _, -, -, -, rfl, -⟩ := Scopes.declare_eq_ok hdeclare
    simp
  next => exact ensures_throw

theorem resolve (name : String) (location : Location) :
    Silent result (Parser.resolve name location) fun _ => True := by
  refine of_kept fun state => ?_
  simp only [Parser.resolve, ensures_bind, ensures_get]
  split
  · simp
  · exact ensures_throw

/-- Elements of which nothing need be known. -/
theorem separated {element : Parser α} (h : Silent result element fun _ => True) (count : Nat) :
    Silent result (Parser.separated element count) fun _ => True := by
  induction count with
  | zero => exact fun _ => .fail
  | succ count ih =>
      refine fun _ => h.andThen fun first _ => (optional _).andThen fun _ _ => ?_
      exact .ite (fun _ => ih.andThen fun _ _ => .pure ⟨rfl, trivial⟩) fun _ => .pure ⟨rfl, trivial⟩

end Silent

namespace Notes

variable {result : Option Ty} {before parts : Set (Located Conversion)}

theorem warn (warnings : List (Located Conversion)) :
    Notes result before (Parser.warn warnings) fun _ after =>
      after = before ∪ {w | w ∈ warnings} := by
  rintro state rfl rfl
  simp only [Parser.warn, ensures_modify, List.mem_append]
  exact ⟨trivial, rfl⟩

/-- Beside the warnings of its parts are those of what is built from them. -/
theorem built {rule : Checked (Noted Expr)} (h : ∀ noted, rule = .ok noted → noted.Adds parts) :
    Notes result (before ∪ parts) (Parser.built rule) fun whole after =>
      after = before ∪ whole.conversions :=
  (Silent.checked rule).andThen fun noted hnoted => (warn noted.warnings).bind fun _ _ hafter =>
    .pure (by rw [hafter, h noted hnoted, Set.union_assoc, Set.union_comm parts])

theorem bindValue (type : Ty) (value : Expr) :
    Notes result before (Parser.bindValue type value) fun _ after =>
      after = before ∪ {w | w ∈ Storing.warnings ⟨type, value.type, value.location⟩} :=
  (Silent.checked _).andThen fun warnings hchecked =>
    Checked.bindValue_warnings hchecked ▸ warn warnings

/-- From whatever warnings there are, the parser reads expressions and notes what they give rise
to. -/
def OfExpr (result : Option Ty) (parser : Parser Expr) : Prop :=
  ∀ before, Notes result before parser fun e after => after = before ∪ e.conversions

/-- The same for elements of a list. -/
theorem separated {element : Parser Expr} (h : OfExpr result element) (count : Nat) :
    Notes result before (Parser.separated element count) fun list after =>
      after = before ∪ {w | ∃ e ∈ list, w ∈ e.conversions} := by
  induction count generalizing before with
  | zero => exact fail
  | succ count ih =>
      refine (h before).bind fun first _ hfirst => (Silent.optional _).andThen fun _ _ => ?_
      refine ite (fun _ => ih.bind fun rest _ hrest => pure ?_) fun _ => pure ?_
      · rw [hrest, hfirst, Set.union_assoc]
        congr 1
        ext w
        simp
      · simp [hfirst]

/-! ## Expressions -/

theorem operatorTail {operand : Parser Expr} {operators : List (Mark × BinaryOp)}
    {start : Location} (hoperand : OfExpr result operand) (count : Nat) (left : Expr) :
    Notes result (before ∪ left.conversions) (Parser.operatorTail operand operators start count left)
      fun whole after => after = before ∪ whole.conversions := by
  induction count generalizing left with
  | zero => exact pure rfl
  | succ count ih =>
      refine Silent.peek.andThen fun token _ => ?_
      split
      next op _ =>
        refine Silent.next.andThen fun _ _ => (hoperand _).bind fun right _ hright => ?_
        refine Silent.scope.andThen fun here _ => Silent.last.andThen fun finish _ => ?_
        rw [hright, Set.union_assoc]
        apply (built fun _ => Expr.combined_adds).bind
        rintro whole _ rfl
        exact ih whole
      next => exact pure rfl

theorem operatorLevel {operand : Parser Expr} (hoperand : OfExpr result operand)
    (operators : List (Mark × BinaryOp)) :
    OfExpr result (Parser.operatorLevel operand operators) := by
  refine fun before => Silent.peekLocation.andThen fun _ _ => ?_
  apply (hoperand before).bind
  rintro left _ rfl
  exact Silent.bound.andThen fun count _ => operatorTail hoperand count left

theorem call {nested : Parser Expr} (hnested : OfExpr result nested) (name : String)
    (start : Location) : OfExpr result (Parser.call nested name start) := by
  refine fun before => (Silent.resolve name start).andThen fun function _ => ?_
  split
  next given parameters htype =>
    have hrest : ∀ arguments,
        Notes result (before ∪ {w | ∃ argument ∈ arguments, w ∈ argument.conversions})
          (do Parser.built (Expr.called (← Parser.scope) (.span start (← Parser.last)) function
            given parameters arguments)) fun whole after => after = before ∪ whole.conversions := by
      refine fun arguments => Silent.scope.andThen fun here _ => Silent.last.andThen fun finish _ => ?_
      exact built fun _ => Expr.called_adds htype
    refine (Silent.expect _).andThen fun _ _ => (Silent.optional _).andThen fun _ _ => ?_
    refine ite (fun _ => ?_) fun _ => ?_
    · have hnone : {w | ∃ argument ∈ ([] : List Expr), w ∈ argument.conversions} = ∅ := by simp
      have hcall := hrest []
      rwa [hnone, Set.union_empty] at hcall
    · refine Silent.bound.andThen fun count _ => ?_
      apply (separated hnested count).bind
      rintro arguments _ rfl
      exact (Silent.expect _).andThen fun _ _ => hrest arguments
  next => exact failAt

theorem use (name : String) (location : Location) : OfExpr result (Parser.use name location) :=
  fun _ => (Silent.resolve name location).andThen fun _ _ => ite (fun _ => failAt) fun _ =>
    Silent.scope.andThen fun _ _ => pure (by simp)

theorem literal {make : Note → Expr} {type : Ty} {location : Location}
    (h : ∀ note, (make note).conversions = ∅) :
    OfExpr result (Parser.literal make type location) :=
  fun _ => Silent.scope.andThen fun _ _ => pure (by simp [h])

theorem primary {nested : Parser Expr} (hnested : OfExpr result nested) :
    OfExpr result (Parser.primary nested) := by
  refine fun before => Silent.next.andThen fun token _ => ?_
  obtain ⟨token, location⟩ := token
  cases token with
  | integer value => exact literal (fun _ => Expr.conversions_number) before
  | character byte => exact literal (fun _ => Expr.conversions_number) before
  | string bytes => exact literal (fun _ => Expr.conversions_string) before
  | identifier name =>
      exact Silent.peek.andThen fun _ _ =>
        ite (fun _ => call hnested name location before) fun _ => use name location before
  | mark m =>
      cases m with
      | openParen =>
          exact (hnested before).bind fun _ _ hinner => (Silent.expect _).andThen fun _ _ =>
            pure hinner
      | _ => exact fail
  | _ => exact fail

theorem trailingSteps {start : Location} (count : Nat) (operand : Expr) :
    Notes result (before ∪ operand.conversions) (Parser.trailingSteps start count operand)
      fun whole after => after = before ∪ whole.conversions := by
  induction count generalizing operand with
  | zero => exact pure rfl
  | succ count ih =>
      refine Silent.peek.andThen fun token _ => ?_
      split
      next op back _ =>
        refine Silent.next.andThen fun _ _ => Silent.scope.andThen fun here _ => ?_
        refine Silent.last.andThen fun finish _ => ?_
        apply (built fun _ => Expr.steppedAfter_adds).bind
        rintro whole _ rfl
        exact ih whole
      next => exact pure rfl

theorem trailing {nested : Parser Expr} (hnested : OfExpr result nested) :
    OfExpr result (Parser.trailing nested) := by
  refine fun before => Silent.peekLocation.andThen fun _ _ => ?_
  apply (primary hnested before).bind
  rintro operand _ rfl
  exact Silent.bound.andThen fun count _ => trailingSteps count operand

theorem applyLeading (op : UnaryOp) (start : Location) (operand : Expr) :
    Notes result (before ∪ operand.conversions) (Parser.applyLeading op start operand)
      fun whole after => after = before ∪ whole.conversions := by
  refine Silent.scope.andThen fun here _ => Silent.last.andThen fun finish _ => ?_
  have happlied : ∀ noted, Expr.applied here (.span start finish) op operand = .ok noted →
      noted.Adds operand.conversions := by
    intro noted hnoted
    obtain ⟨hnone, hsame⟩ := Expr.applied_adds hnoted
    simp [Noted.Adds, hnone, hsame]
  cases op with
  | increment | decrement => exact built fun _ => Expr.stepped_adds
  | _ => exact built happlied

theorem leading {nested : Parser Expr} (hnested : OfExpr result nested) (count : Nat) :
    OfExpr result (Parser.leading nested count) := by
  induction count with
  | zero => exact fun _ => fail
  | succ count ih =>
      refine fun before => Silent.peekLocation.andThen fun start _ => ?_
      refine Silent.peek.andThen fun token _ => ?_
      split
      next op _ =>
        refine Silent.next.andThen fun _ _ => (ih before).bind ?_
        rintro operand _ rfl
        exact applyLeading op start operand
      next => exact trailing hnested before

theorem operators {nested : Parser Expr} (hnested : OfExpr result nested) (count : Nat) :
    OfExpr result (Parser.operators nested count) := by
  have hlevels : ∀ (levels : List (List (Mark × BinaryOp))) (operand : Parser Expr),
      OfExpr result operand → OfExpr result (levels.foldl Parser.operatorLevel operand) := by
    intro levels
    induction levels with
    | nil => exact fun _ h => h
    | cons level levels ih => exact fun operand h => ih _ (operatorLevel h level)
  exact hlevels _ _ (leading hnested count)

theorem expressionWithin (count : Nat) : OfExpr result (Parser.expressionWithin count) := by
  induction count with
  | zero => exact fun _ => fail
  | succ count ih =>
      refine fun before => Silent.peekLocation.andThen fun start _ => ?_
      apply (operators ih _ before).bind
      rintro target _ rfl
      refine (Silent.optional _).andThen fun _ _ => ite (fun _ => ?_) fun _ => pure rfl
      refine (ih _).bind fun value _ hvalue => ?_
      refine Silent.scope.andThen fun here _ => Silent.last.andThen fun finish _ => ?_
      rw [hvalue, Set.union_assoc]
      exact built fun _ => Expr.assigned_adds

/-- What an expression that is read gives rise to is noted. -/
theorem expression : OfExpr result Parser.expression := fun before =>
  Silent.bound.andThen fun count _ => expressionWithin count before

/-! ## Statements -/

theorem initialValue (external : Bool) (type : Ty) (name : Located String) :
    Notes result before (Parser.initialValue external type name) fun value after =>
      after = before ∪ (value.conversions ∪
        {w | w ∈ Storing.warnings ⟨type, value.type, value.location⟩}) := by
  refine (expression before).bind fun value middle hmiddle => ?_
  have hrest : Notes result middle (do
      Parser.bindValue type value
      if (← Parser.scope) = globalScope ∧ ¬ value.isInitializer then
        Parser.failAt (.notConstant name.value) value.location
      return value) fun read after => after = before ∪ (read.conversions ∪
        {w | w ∈ Storing.warnings ⟨type, read.type, read.location⟩}) := by
    refine (bindValue type value).bind fun _ _ hafter => Silent.scope.andThen fun here _ => ?_
    exact ite (fun _ => failAtThen) fun _ => pure (by rw [hafter, hmiddle, Set.union_assoc])
  exact ite (fun _ => failThen) fun _ => hrest

theorem condition : OfExpr result Parser.condition := fun before =>
  (Silent.expect _).andThen fun _ _ => (expression before).bind fun _ _ hvalue =>
    (Silent.expect _).andThen fun _ _ => (Silent.checked _).andThen fun _ _ => pure hvalue

theorem declaration : Notes result before Parser.declaration fun declared after =>
    after = before ∪ declared.conversions := by
  refine (Silent.optional _).andThen fun external _ => Silent.type.andThen fun type _ => ?_
  refine Silent.identifier.andThen fun name _ => ?_
  -- Both ends of the check for a value continue in the same way.
  have hdeclare : ∀ initial : Option Expr,
      Notes result (before ∪ initial.elim ∅ fun value => value.conversions ∪
          {w | w ∈ Storing.warnings ⟨type, value.type, value.location⟩}) (do
        return (⟨← Parser.declare (← Parser.scope) name type external, initial⟩ : Declaration))
        fun declared after => after = before ∪ declared.conversions := by
    refine fun initial => Silent.scope.andThen fun here _ => ?_
    apply (Silent.declare here name type external).andThen
    rintro symbol rfl
    exact pure (by rw [Declaration.conversions_eq])
  have hrest : Notes result before (do
      let initial ←
        if ← Parser.optional (.mark .assign) then
          some <$> Parser.initialValue external type name
        else Pure.pure none
      return ⟨← Parser.declare (← Parser.scope) name type external, initial⟩)
      fun (declared : Declaration) after => after = before ∪ declared.conversions := by
    refine (Silent.optional _).andThen fun _ _ => ite (fun _ => ?_) fun _ => ?_
    · have hinitial : Notes result before (some <$> Parser.initialValue external type name)
          fun initial after => after = before ∪ initial.elim ∅ fun value => value.conversions ∪
            {w | w ∈ Storing.warnings ⟨type, value.type, value.location⟩} :=
        map (initialValue external type name)
      apply hinitial.bind
      rintro initial _ rfl
      exact hdeclare initial
    · have hnone := hdeclare none
      rwa [Option.elim_none, Set.union_empty] at hnone
  exact ite (fun _ => (Silent.requireVariable type name).andThen fun _ _ => hrest) fun _ => hrest

theorem returnedValue : Notes result before Parser.returnedValue fun value after =>
    after = before ∪ value.elim ∅ fun value => value.conversions ∪
      {w | w ∈ Storing.warnings ⟨result.getD .void, value.type, value.location⟩} := by
  apply Silent.get.andThen
  rintro found rfl
  refine (Silent.optional _).andThen fun _ _ => ite (fun _ => ?_) fun _ => ?_
  · exact ite (fun _ => failThen) fun _ => pure (by simp)
  · refine (expression before).bind fun value _ hvalue => (Silent.expect _).andThen fun _ _ => ?_
    refine ite (fun _ => failAtThen) fun _ => (bindValue _ value).bind fun _ _ hafter => pure ?_
    rw [hafter, hvalue, Set.union_assoc]
    rfl

/-- From whatever warnings there are, the parser reads statements and notes what they give rise to. -/
def OfStatement (result : Option Ty) (parser : Parser Statement) : Prop :=
  ∀ before, Notes result before parser fun statement after =>
    after = before ∪ statement.conversions (result.getD .void)

theorem expressionStatement : OfStatement result Parser.expressionStatement := by
  refine fun before => (expression before).bind fun value middle hmiddle => ?_
  refine (Silent.expect _).andThen fun _ _ => ?_
  have hvalue : Notes result middle (Pure.pure (Statement.expression value)) fun statement after =>
      after = before ∪ statement.conversions (result.getD .void) :=
    pure (by rw [hmiddle, Statement.conversions_expression])
  exact ite (fun _ => (Silent.checked _).andThen fun _ _ => hvalue) fun _ => hvalue

theorem blockRest {nested : Parser Statement} (hnested : OfStatement result nested) (count : Nat) :
    Notes result before (Parser.blockRest nested count) fun body after =>
      after = before ∪ {w | ∃ statement ∈ body, w ∈ statement.conversions (result.getD .void)} := by
  induction count generalizing before with
  | zero => exact fail
  | succ count ih =>
      refine (Silent.optional _).andThen fun _ _ => ite (fun _ => pure (by simp)) fun _ => ?_
      refine Silent.peek.andThen fun token _ => ?_
      have hrest : ∀ first : Statement,
          Notes result (before ∪ first.conversions (result.getD .void))
            (do return first :: (← Parser.blockRest nested count)) fun body after =>
              after = before ∪
                {w | ∃ statement ∈ body, w ∈ statement.conversions (result.getD .void)} := by
        refine fun first => ih.bind fun rest _ hrest => pure ?_
        rw [hrest, Set.union_assoc]
        congr 1
        ext w
        simp
      refine ite (fun _ => ?_) fun _ => (hnested before).bind ?_
      · refine declaration.bind fun declared _ hdeclared => (Silent.expect _).andThen fun _ _ => ?_
        rw [hdeclared, ← Statement.conversions_declaration declared]
        exact hrest _
      · rintro first _ rfl
        exact hrest first

theorem block {nested : Parser Statement} (hnested : OfStatement result nested) :
    Notes result before (Parser.block nested) fun read after =>
      after = before ∪
        {w | ∃ statement ∈ read.2.1, w ∈ statement.conversions (result.getD .void)} := by
  refine (Silent.expect _).andThen fun _ _ => Silent.last.andThen fun start _ => ?_
  refine Silent.scope.andThen fun outer _ => Silent.withScopes.andThen fun inner _ => ?_
  refine (Silent.moveTo inner).andThen fun _ _ => Silent.bound.andThen fun count _ => ?_
  refine (blockRest hnested count).bind fun body _ hbody => ?_
  exact (Silent.moveTo outer).andThen fun _ _ => Silent.last.andThen fun finish _ => pure hbody

theorem statementWithin (count : Nat) : OfStatement result (Parser.statementWithin count) := by
  induction count with
  | zero => exact fun _ => fail
  | succ count ih =>
      refine fun before => Silent.peek.andThen fun token _ => ?_
      split
      · refine (Silent.expect _).andThen fun _ _ => Silent.last.andThen fun location _ => ?_
        refine returnedValue.bind fun value _ hvalue => Silent.scope.andThen fun here _ => pure ?_
        rw [hvalue, Statement.conversions_returning]
      · refine (Silent.expect _).andThen fun _ _ => Silent.last.andThen fun location _ => ?_
        refine (condition before).bind fun test _ htest => (ih _).bind fun yes _ hyes => ?_
        refine (Silent.optional _).andThen fun _ _ => ite (fun _ => ?_) fun _ => pure ?_
        · refine (ih _).bind fun no _ hno => pure ?_
          rw [hno, hyes, htest, Statement.conversions_branch, Set.union_assoc, Set.union_assoc]
          rfl
        · rw [hyes, htest, Statement.conversions_branch, Set.union_assoc, Option.elim_none,
            Set.union_empty]
      · refine (Silent.expect _).andThen fun _ _ => Silent.last.andThen fun location _ => ?_
        refine (condition before).bind fun test _ htest => (ih _).bind fun body _ hbody => pure ?_
        rw [hbody, htest, Statement.conversions_loop, Set.union_assoc]
      · refine (block ih).bind fun read _ hbody => pure ?_
        rw [hbody, Statement.conversions_block]
      · exact expressionStatement before

/-- What a statement that is read gives rise to is noted. -/
theorem statement : OfStatement result Parser.statement := fun before =>
  Silent.bound.andThen fun count _ => statementWithin count before

/-! ## Items -/

theorem parameter (scope : ScopeId) : Silent result (Parser.parameter scope) fun _ => True :=
  fun _ => Silent.type.andThen fun type _ => Silent.identifier.andThen fun name _ =>
    (Silent.requireVariable type name).andThen fun _ _ =>
      (Silent.declare scope name type false).andThen fun _ _ => pure ⟨rfl, trivial⟩

/-- A body is read as that of a function with its result, and what comes after it outside again. -/
theorem within {inner : Parser α} {post : α → Set (Located Conversion) → Prop}
    {next : α → Parser β} {last : β → Set (Located Conversion) → Prop} {given : Ty}
    {scope : ScopeId} (h : Notes (some given) before inner post)
    (hnext : ∀ value middle, post value middle → Notes none middle (next value) last) :
    Notes none before (do
      modify fun state => { state with scope, result := some given }
      let value ← inner
      modify fun state => { state with scope := globalScope, result := none }
      next value) last := by
  intro state _ hbefore
  simp only [ensures_bind, ensures_modify]
  refine (h { state with scope, result := some given } rfl hbefore).mono ?_
  rintro value middle ⟨-, hpost⟩
  exact hnext value _ hpost _ rfl rfl

theorem functionRest (given : Ty) (name : Located String) (scope : ScopeId)
    (parameters : List Ty) :
    Notes none before (Parser.functionRest given name scope parameters) fun function after =>
      after = before ∪ (Item.function function).conversions := by
  refine (Silent.expect _).andThen fun _ _ => Silent.withScopes.andThen fun _ _ => ?_
  refine (Silent.declare _ _ _ _).andThen fun symbol hsymbol => ?_
  refine within (block statement) fun read _ hbody => pure ?_
  have hresult : symbol.result = given := by rw [Symbol.result, hsymbol]
  rw [hbody, Item.conversions, hresult]
  rfl

theorem function : Notes none before Parser.function fun function after =>
    after = before ∪ (Item.function function).conversions := by
  refine Silent.type.andThen fun given _ => Silent.identifier.andThen fun name _ => ?_
  refine (Silent.expect _).andThen fun _ _ => Silent.withScopes.andThen fun scope _ => ?_
  refine Silent.peek.andThen fun _ _ => ite (fun _ => functionRest given name scope []) fun _ => ?_
  exact Silent.bound.andThen fun count _ =>
    (Silent.separated (parameter scope) count).andThen fun parameters _ =>
      functionRest given name scope parameters

theorem item : Notes none before Parser.item fun item after =>
    after = before ∪ item.conversions := by
  refine Silent.get.andThen fun state _ => ite (fun _ => ?_) fun _ => ?_
  · exact function.bind fun defined _ hdefined => pure hdefined
  · exact declaration.bind fun declared _ hdeclared => (Silent.expect _).andThen fun _ _ =>
      pure hdeclared

theorem items (count : Nat) : Notes none before (Parser.items count) fun items after =>
    after = before ∪ {w | ∃ item ∈ items, w ∈ item.conversions} := by
  induction count generalizing before with
  | zero => exact pure (by simp)
  | succ count ih =>
      refine Silent.peek.andThen fun _ _ => ite (fun _ => pure (by simp)) fun _ => ?_
      refine item.bind fun first _ hfirst => ih.bind fun rest _ hrest => pure ?_
      rw [hrest, hfirst, Set.union_assoc]
      congr 1
      ext w
      simp

theorem program : Notes none before Parser.program fun items after =>
    after = before ∪ {w | ∃ item ∈ items, w ∈ item.conversions} := by
  refine Silent.bound.andThen fun count _ => (items count).bind fun list _ hlist => ?_
  refine Silent.get.andThen fun state _ => ?_
  split
  · exact ite (fun _ => pure hlist) fun _ => fail
  · exact fail

end Notes

end Parser

/-- The warnings of a program that is read are those that its parts give rise to. -/
theorem Program.ofTokens_conversions {tokens : List (Located Token)} {parsed : Parsed}
    (h : Program.ofTokens tokens = .ok parsed) (w : Located Conversion) :
    w ∈ parsed.warnings ↔ w ∈ parsed.program.conversions := by
  simp only [Program.ofTokens] at h
  split at h
  next list state hrun =>
    cases h
    obtain ⟨-, hafter⟩ := Parser.Notes.program _ rfl rfl list state hrun
    have hset : {w | w ∈ state.warnings} = {w | ∃ item ∈ list, w ∈ item.conversions} := by
      rw [hafter]
      simp
    exact Set.ext_iff.mp hset w
  next => cases h

/-- Whatever a program that is read stores, its conversion is among the warnings. -/
theorem Program.ofTokens_notes {tokens : List (Located Token)} {parsed : Parsed}
    (h : Program.ofTokens tokens = .ok parsed) :
    ∀ stored ∈ parsed.program.storings, stored.warnings ⊆ parsed.warnings := fun _ hmem w hw =>
  (ofTokens_conversions h w).mpr (mem_conversions_of_storing hmem hw)

end AccumulatorC
