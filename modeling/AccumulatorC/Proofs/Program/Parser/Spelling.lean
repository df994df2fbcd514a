import AccumulatorC.Proofs.Program.Parser.Expression
import AccumulatorC.Proofs.Program.Parser.Taking

/-!
# Expressions are written as they are spelled

The calls and string literals of an expression that is read are those of its tokens, in their order.
Neighbouring values stand nowhere but in the steps that are built of them.
-/

namespace AccumulatorC

/-! ## The rules -/

namespace Expr

variable {scope : ScopeId} {location : Location} {noted : Noted Expr}

/-- The calls and string literals of an expression are as found, and it is no neighbouring value. -/
def Spelled (e : Expr) (found : List Mention) : Prop := e.written = found ∧ e.isNeighbour = false

theorem assigned_eq_ok {target value : Expr} (h : assigned scope location target value = .ok noted) :
    target.isPlace = true ∧ ∃ note, noted.value = .assign note target value := by
  unfold assigned at h
  split at h
  next hplace =>
    simp only [bind_eq_ok, pure_eq_ok] at h
    obtain ⟨_, -, _, -, rfl⟩ := h
    exact ⟨hplace, _, rfl⟩
  next => cases h

theorem applied_eq_ok {op : UnaryOp} {operand : Expr}
    (h : applied scope location op operand = .ok noted) :
    ∃ note, noted.value = .unary note op operand := by
  cases op with
  | addressOf =>
      simp only [applied] at h
      split at h
      next => cases h; exact ⟨_, rfl⟩
      next => cases h
  | deref =>
      simp only [applied] at h
      split at h
      next => cases h; exact ⟨_, rfl⟩
      next => cases h
  | _ =>
      simp only [applied, bind_eq_ok, pure_eq_ok] at h
      obtain ⟨_, -, rfl⟩ := h
      exact ⟨_, rfl⟩

theorem assigned_spelled {target value : Expr} {found : List Mention}
    (hvalue : value.Spelled found) (h : assigned scope location target value = .ok noted) :
    noted.value.Spelled (target.written ++ found) := by
  obtain ⟨-, note, hassign⟩ := assigned_eq_ok h
  rw [hassign, Spelled, written, if_neg (by simp [hvalue.2]), hvalue.1]
  exact ⟨rfl, rfl⟩

theorem combined_spelled {op : BinaryOp} {left right : Expr} {found : List Mention}
    (hright : right.Spelled found) (h : combined scope location op left right = .ok noted) :
    noted.value.Spelled (left.written ++ found) := by
  simp only [combined, bind_eq_ok, pure_eq_ok] at h
  obtain ⟨_, -, _, -, _, -, rfl⟩ := h
  rw [Spelled, written, hright.1]
  exact ⟨rfl, rfl⟩

theorem applied_spelled {op : UnaryOp} {operand : Expr}
    (hplain : op.steps = false ∨ operand.isPlace = false)
    (h : applied scope location op operand = .ok noted) : noted.value.Spelled operand.written := by
  obtain ⟨note, hunary⟩ := applied_eq_ok h
  rw [hunary, Spelled, written, isNeighbour]
  refine ⟨rfl, ?_⟩
  rcases hplain with hop | hplace
  · rw [hop, Bool.false_and]
  · rw [hplace, Bool.and_false]

/-- A step is written as its place. -/
theorem stepped_spelled {op : UnaryOp} {target : Expr} (hop : op.steps = true)
    (h : stepped scope location op target = .ok noted) :
    noted.value.Spelled target.written ∧ noted.value.isPlace = false := by
  unfold stepped at h
  split at h
  next hplace =>
    simp only [bind_eq_ok, pure_eq_ok] at h
    obtain ⟨neighbour, hneighbour, step, hstep, rfl⟩ := h
    obtain ⟨note, hunary⟩ := applied_eq_ok hneighbour
    obtain ⟨-, note', hassign⟩ := assigned_eq_ok hstep
    show step.value.Spelled target.written ∧ step.value.isPlace = false
    rw [hassign, Spelled, written, hunary, if_pos (by rw [isNeighbour, hop, hplace]; rfl)]
    exact ⟨⟨rfl, rfl⟩, rfl⟩
  next => cases h

theorem steppedAfter_spelled {op back : UnaryOp} {target : Expr} (hop : op.steps = true)
    (h : steppedAfter scope location op back target = .ok noted) :
    noted.value.Spelled target.written := by
  simp only [steppedAfter, bind_eq_ok, pure_eq_ok] at h
  obtain ⟨step, hstep, former, hformer, rfl⟩ := h
  obtain ⟨⟨hwritten, -⟩, hplace⟩ := stepped_spelled hop hstep
  show former.value.Spelled target.written
  rw [← hwritten]
  exact applied_spelled (.inr hplace) hformer

theorem called_spelled {function : Symbol} {result : Ty} {parameters : List Ty}
    {arguments : List Expr} (h : called scope location function result parameters arguments = .ok noted) :
    noted.value.Spelled (.call function.name :: allWritten arguments) := by
  unfold called at h
  split at h
  next =>
    simp only [bind_eq_ok, pure_eq_ok] at h
    obtain ⟨_, -, rfl⟩ := h
    exact ⟨rfl, rfl⟩
  next => cases h

theorem allWritten_eq_flatMap (arguments : List Expr) :
    allWritten arguments = arguments.flatMap written := by
  induction arguments with
  | nil => rfl
  | cons e rest ih => rw [allWritten, ih, List.flatMap_cons]

end Expr

/-! ## The parsers -/

namespace Parser.Takes

variable {source : List Token} {nested : Parser Expr}

theorem resolve (name : String) (location : Location) :
    Takes source (Parser.resolve name location) fun symbol found =>
      symbol.name = name ∧ found = [] := by
  intro state hstate
  simp only [Parser.resolve, TakesFrom, ensures_bind, ensures_get]
  split
  next symbol hfound => exact ensures_pure.mpr ⟨[], .refl hstate.scopes, Scopes.lookup_name hfound, rfl⟩
  next => exact ensures_throw

theorem operator?_eq_some {γ : Type} {operators : List (Mark × γ)} {token : Option Token} {op : γ}
    (h : operator? operators token = some op) :
    ∃ mark, token = some (.mark mark) ∧ operators.lookup mark = some op := by
  unfold operator? at h
  split at h
  next mark => exact ⟨mark, rfl, h⟩
  next => cases h

theorem operatorTail {operators : List (Mark × BinaryOp)} {start : Location}
    (hnested : Takes source nested Expr.Spelled) (count : Nat) {left : Expr}
    (hleft : left.isNeighbour = false) :
    Takes source (Parser.operatorTail nested operators start count left) fun e found =>
      e.Spelled (left.written ++ found) := by
  induction count generalizing left with
  | zero => exact pure ⟨(List.append_nil _).symm, hleft⟩
  | succ count ih =>
      refine peek fun state hstate => ?_
      split
      next op hop =>
        obtain ⟨mark, hhead, -⟩ := operator?_eq_some hop
        refine nextFrom hstate hhead rfl fun _ => hnested.bind fun right found hright => ?_
        refine scope.quietly fun here => last.quietly fun finish => (built _).bind ?_
        rintro _ _ ⟨⟨noted, hnoted, rfl⟩, rfl⟩
        have hwhole := Expr.combined_spelled hright hnoted
        refine (ih hwhole.2).mono fun e more he => ?_
        rwa [hwhole.1, List.append_assoc] at he
      next => exact pure ⟨(List.append_nil _).symm, hleft⟩ state hstate

theorem operatorLevel (hnested : Takes source nested Expr.Spelled)
    (operators : List (Mark × BinaryOp)) :
    Takes source (Parser.operatorLevel nested operators) Expr.Spelled := by
  refine peekLocation.quietly fun start => hnested.bind fun left found hleft => ?_
  refine bound.quietly fun count => (operatorTail hnested count hleft.2).mono fun e more he => ?_
  rwa [hleft.1] at he

/-- A call after its name: the parentheses and what stands between them. -/
theorem call (hnested : Takes source nested Expr.Spelled) (name : String) (start : Location) :
    Takes source (Parser.call nested name start) fun e found => e.Spelled (.call name :: found) := by
  refine (resolve name start).bind ?_
  rintro function _ ⟨rfl, rfl⟩
  split
  next result parameters _ =>
    have hrest : ∀ arguments, Takes source
        (do Parser.built (Expr.called (← Parser.scope) (.span start (← Parser.last)) function
          result parameters arguments))
        fun e found => e.Spelled (.call function.name :: (Expr.allWritten arguments ++ found)) := by
      intro arguments
      refine scope.quietly fun here => last.quietly fun finish => builtBy fun noted hnoted => ?_
      rw [List.append_nil]
      exact Expr.called_spelled hnoted
    have helement : Takes source nested fun e found => found = e.written ∧ e.isNeighbour = false :=
      hnested.mono fun e found he => ⟨he.1.symm, he.2⟩
    refine (expect rfl).quietly fun _ => (optional rfl).quietly fun closed => ite (fun _ => ?_) fun _ => ?_
    · exact hrest []
    · refine bound.quietly fun count => (separated helement count).bind ?_
      rintro arguments _ ⟨rfl, -⟩
      refine (expect rfl).quietly fun _ => (hrest arguments).mono fun e found he => ?_
      rwa [Expr.allWritten_eq_flatMap] at he
  next => exact failAt

theorem use (name : String) (location : Location) :
    Takes source (Parser.use name location) Expr.Spelled := by
  refine (resolve name location).bind ?_
  rintro symbol _ ⟨-, rfl⟩
  exact ite (fun _ => failAt) fun _ => scope.quietly fun here => pure ⟨rfl, rfl⟩

theorem literal {make : Note → Expr} {type : Ty} {location : Location} {found : List Mention}
    (h : ∀ note, (make note).Spelled found) :
    Takes source (Parser.literal make type location) fun e more => e.Spelled (found ++ more) :=
  scope.quietly fun here => pure (by rw [List.append_nil]; exact h _)

theorem primary (hnested : Takes source nested Expr.Spelled) :
    Takes source (Parser.primary nested) Expr.Spelled := by
  intro state hstate
  refine ensures_bind.mpr (ensures_next fun token middle hcoming hscopes => ?_)
  obtain ⟨token, location⟩ := token
  have hmiddle : Within source middle :=
    ⟨(List.suffix_cons _ _).trans (hcoming ▸ hstate.coming), hscopes ▸ hstate.scopes⟩
  -- What is read after a token with its mentions is spelled by both.
  have hrest : ∀ {parser : Parser Expr} {found : List Mention},
      mentions state.coming = found ++ mentions middle.coming →
      Takes source parser (fun e more => e.Spelled (found ++ more)) →
      Ensures parser middle fun e after => ∃ whole, Taken source state whole after ∧ e.Spelled whole :=
    fun hmentions hparser =>
      hparser.after hstate ⟨⟨[token], hcoming.symm⟩, hmentions, hmiddle.scopes⟩
  have hquiet : token.isQuiet = true → mentions state.coming = [] ++ mentions middle.coming := by
    intro htoken
    rw [hcoming, mentions_quiet htoken]
    rfl
  cases token with
  | integer value => exact hrest (hquiet rfl) (literal fun note => ⟨rfl, rfl⟩)
  | character byte => exact hrest (hquiet rfl) (literal fun note => ⟨rfl, rfl⟩)
  | string bytes =>
      have hmentions : mentions state.coming = [.text bytes] ++ mentions middle.coming := by
        rw [hcoming, mentions_string]
        rfl
      exact hrest hmentions (literal fun note => ⟨rfl, rfl⟩)
  | identifier name =>
      refine ensures_bind.mpr (ensures_peek.mpr ?_)
      by_cases hcall : middle.coming.head? = some (.mark .openParen)
      · simp only [if_pos hcall]
        have hmentions : mentions state.coming = [.call name] ++ mentions middle.coming := by
          obtain ⟨rest, hopen⟩ := List.head?_eq_some_iff.mp hcall
          rw [hcoming, hopen, mentions_call, mentions_quiet rfl]
          rfl
        exact hrest hmentions (call hnested name location)
      · simp only [if_neg hcall]
        have hmentions : mentions state.coming = [] ++ mentions middle.coming := by
          rw [hcoming, mentions_identifier hcall]
          rfl
        exact hrest hmentions (use name location)
  | mark m =>
      cases m with
      | openParen =>
          refine hrest (hquiet rfl) (hnested.bind fun e found he => ?_)
          exact (expect rfl).quietly fun _ => pure (by simpa using he)
      | _ => exact ensures_fail
  | _ => exact ensures_fail

theorem trailingStep?_eq_some {token : Option Token} {op back : UnaryOp}
    (h : trailingStep? token = some (op, back)) :
    (∃ mark, token = some (.mark mark)) ∧ op.steps = true := by
  unfold trailingStep? at h
  split at h
  next => cases h; exact ⟨⟨_, rfl⟩, rfl⟩
  next => cases h; exact ⟨⟨_, rfl⟩, rfl⟩
  next => cases h

theorem trailingSteps {start : Location} (count : Nat) {operand : Expr}
    (hoperand : operand.isNeighbour = false) :
    Takes source (Parser.trailingSteps start count operand) fun e found =>
      e.Spelled (operand.written ++ found) := by
  induction count generalizing operand with
  | zero => exact pure ⟨(List.append_nil _).symm, hoperand⟩
  | succ count ih =>
      refine peek fun state hstate => ?_
      split
      next op back hstep =>
        obtain ⟨⟨mark, hhead⟩, hop⟩ := trailingStep?_eq_some hstep
        refine nextFrom hstate hhead rfl fun _ => scope.quietly fun here => last.quietly fun finish => ?_
        refine (built _).bind ?_
        rintro _ _ ⟨⟨noted, hnoted, rfl⟩, rfl⟩
        have hwhole := Expr.steppedAfter_spelled hop hnoted
        exact (ih hwhole.2).mono fun e more he => by rwa [hwhole.1] at he
      next => exact pure ⟨(List.append_nil _).symm, hoperand⟩ state hstate

theorem trailing (hnested : Takes source nested Expr.Spelled) :
    Takes source (Parser.trailing nested) Expr.Spelled := by
  refine peekLocation.quietly fun start => (primary hnested).bind fun operand found hoperand => ?_
  refine bound.quietly fun count => (trailingSteps count hoperand.2).mono fun e more he => ?_
  rwa [hoperand.1] at he

theorem applyLeading (op : UnaryOp) (start : Location) (operand : Expr) :
    Takes source (Parser.applyLeading op start operand) fun e found =>
      e.Spelled (operand.written ++ found) := by
  refine scope.quietly fun here => last.quietly fun finish => ?_
  have hstepped : op.steps = true → Takes source
      (Parser.built (Expr.stepped here (.span start finish) op operand))
      fun e found => e.Spelled (operand.written ++ found) := fun hop =>
    builtBy fun noted hnoted => by
      rw [List.append_nil]
      exact (Expr.stepped_spelled hop hnoted).1
  have happlied : op.steps = false → Takes source
      (Parser.built (Expr.applied here (.span start finish) op operand))
      fun e found => e.Spelled (operand.written ++ found) := fun hop =>
    builtBy fun noted hnoted => by
      rw [List.append_nil]
      exact Expr.applied_spelled (.inl hop) hnoted
  cases op <;> first | exact hstepped rfl | exact happlied rfl

theorem leading (hnested : Takes source nested Expr.Spelled) (count : Nat) :
    Takes source (Parser.leading nested count) Expr.Spelled := by
  induction count with
  | zero => exact fail
  | succ count ih =>
      refine peekLocation.quietly fun start => peek fun state hstate => ?_
      split
      next op hop =>
        obtain ⟨mark, hhead, -⟩ := operator?_eq_some hop
        refine nextFrom hstate hhead rfl fun _ => ih.bind fun operand found hoperand => ?_
        exact (applyLeading op start operand).mono fun e more he => by rwa [hoperand.1] at he
      next => exact trailing hnested state hstate

theorem operators (hnested : Takes source nested Expr.Spelled) (count : Nat) :
    Takes source (Parser.operators nested count) Expr.Spelled := by
  have hlevels : ∀ (levels : List (List (Mark × BinaryOp))) (operand : Parser Expr),
      Takes source operand Expr.Spelled →
      Takes source (levels.foldl Parser.operatorLevel operand) Expr.Spelled := by
    intro levels
    induction levels with
    | nil => exact fun _ h => h
    | cons level levels ih => exact fun operand h => ih _ (operatorLevel h level)
  exact hlevels _ _ (leading hnested count)

theorem expressionWithin (count : Nat) :
    Takes source (Parser.expressionWithin count) Expr.Spelled := by
  induction count with
  | zero => exact fail
  | succ count ih =>
      refine peekLocation.quietly fun start => (operators ih _).bind fun target found htarget => ?_
      refine (optional rfl).quietly fun assigns => ite (fun _ => ?_) fun _ => pure (by simpa using htarget)
      refine ih.bind fun value more hvalue => scope.quietly fun here => last.quietly fun finish => ?_
      refine builtBy fun noted hnoted => ?_
      rw [List.append_nil, ← htarget.1]
      exact Expr.assigned_spelled hvalue hnoted

/-- An expression is written as the tokens that it is read from. -/
theorem expression : Takes source Parser.expression Expr.Spelled :=
  bound.quietly fun count => expressionWithin count

end Parser.Takes

end AccumulatorC
