import AccumulatorC.Proofs.Program.Parser.Completeness
import AccumulatorC.Proofs.Program.Parser.Soundness

/-!
# Sources are read as the grammar says

The tokens that spell a source which elaborates to the items of a program are read as that program.
Statements are read by the induction that elaborates them; what bounds their nesting is the number of
their tokens.
-/

namespace AccumulatorC.Parser

variable {α : Type} {bound : Nat} {given : Setting} {warnings : List Conversion}
  {coming rest tokens : List Token}

/-! ## Names, types and scopes -/

theorem identifier_facing {name : String} :
    identifier (facing bound given warnings (.identifier name :: rest)) =
      .ok (⟨name, nowhere⟩, facing bound given warnings rest) := rfl

theorem stars_facing (count : Nat) {type : Ty} (hrest : rest.head? ≠ some (.mark .star)) :
    stars count type (facing bound given warnings rest) =
      .ok (type, facing bound given warnings rest) := by
  cases count with
  | zero => rfl
  | succ count =>
      rw [stars, run_bind (optional_left hrest), if_neg Bool.false_ne_true]
      rfl

/-- A type is read up to the stars that follow what was taken for it. -/
theorem type_continued {type : Ty} (h : type.Spelling tokens) {rest : List Token}
    {result : Except (Stop (Located ParseError)) (Ty × ParseState)} (hbound : tokens.length ≤ bound)
    (hresult : ∀ fuel, bound ≤ fuel + tokens.length →
      stars fuel type (facing bound given warnings rest) = result) :
    Parser.type (facing bound given warnings (tokens ++ rest)) = result := by
  induction h generalizing rest with
  | void => exact hresult bound (Nat.le_add_right _ _)
  | char => exact hresult bound (Nat.le_add_right _ _)
  | int => exact hresult bound (Nat.le_add_right _ _)
  | @pointer base tokens h ih =>
      rw [List.length_append, List.length_singleton] at hbound hresult
      rw [List.append_assoc]
      refine ih (by omega) fun fuel hfuel => ?_
      obtain ⟨fuel, rfl⟩ : ∃ less, fuel = less + 1 := ⟨fuel - 1, by omega⟩
      rw [stars, List.singleton_append, run_bind optional_taken, if_pos rfl]
      exact hresult fuel (by omega)

theorem type_facing {type : Ty} (h : type.Spelling tokens) (hbound : tokens.length ≤ bound)
    (hrest : rest.head? ≠ some (.mark .star)) :
    Parser.type (facing bound given warnings (tokens ++ rest)) =
      .ok (type, facing bound given warnings rest) :=
  type_continued h hbound fun fuel _ => stars_facing fuel hrest

theorem get_facing : (get : Parser ParseState) (facing bound given warnings coming) =
    .ok (facing bound given warnings coming, facing bound given warnings coming) := rfl

theorem withScopes_facing {change : Scopes → Except Breakdown (α × Scopes)} {value : α}
    {scopes : Scopes} (h : change given.scopes = .ok (value, scopes)) :
    withScopes change (facing bound given warnings coming) =
      .ok (value, facing bound { given with scopes } warnings coming) := by
  rw [withScopes, run_bind get_facing,
    show (facing bound given warnings coming).scopes = given.scopes from rfl, h]
  rfl

theorem enterScope_facing {parent id : ScopeId} {scopes : Scopes}
    (h : given.scopes.enter parent = .ok (id, scopes)) :
    enterScope parent (facing bound given warnings coming) =
      .ok (id, facing bound { given with scopes } warnings coming) := withScopes_facing h

theorem reserve_facing {scope : ScopeId} {bytes : Nat} {scopes : Scopes}
    (h : given.scopes.reserve scope bytes = .ok scopes) :
    reserve scope bytes (facing bound given warnings coming) =
      .ok ((), facing bound { given with scopes } warnings coming) :=
  withScopes_facing (by rw [h]; rfl)

theorem declare_facing {scope : ScopeId} {name : String} {type : Ty} {external : Bool}
    {symbol : Symbol} {scopes : Scopes}
    (h : given.scopes.declare scope name nowhere type external = .ok (symbol, scopes)) :
    declare scope ⟨name, nowhere⟩ type external (facing bound given warnings coming) =
      .ok (symbol, facing bound { given with scopes } warnings coming) := by
  rw [declare, run_bind get_facing,
    show (facing bound given warnings coming).scopes = given.scopes from rfl]
  dsimp only
  rw [h]
  rfl

/-- The scope and the result are changed. -/
theorem move_facing (scope : ScopeId) (result : Option Ty) :
    (modify fun state => { state with scope, result } : Parser PUnit)
      (facing bound given warnings coming) =
      .ok (⟨⟩, facing bound ⟨given.scopes, scope, result⟩ warnings coming) := rfl

theorem moveTo_facing (scope : ScopeId) :
    (modify fun state => { state with scope } : Parser PUnit)
      (facing bound given warnings coming) =
      .ok (⟨⟩, facing bound { given with scope } warnings coming) := rfl

/-! ## Declarations -/

theorem bindValue_facing {type : Ty} {e : Expr} {warning : Option Conversion}
    (hnowhere : e.location = nowhere) (h : type.assign e.type = .ok warning) :
    bindValue type e (facing bound given warnings coming) =
      .ok ((), facing bound given (warnings ++ warning.toList) coming) := by
  rw [bindValue, run_bind (checked_facing
    ((Checked.bindValue_eq_ok hnowhere).mpr ⟨warning, h, rfl⟩))]
  exact warn_facing warning.toList

theorem requireVariable_facing {type : Ty} {name : Located String} (h : type.isVoid = false) :
    requireVariable type name (facing bound given warnings coming) =
      .ok ((), facing bound given warnings coming) := by
  rw [requireVariable, if_neg (by simp [h])]
  rfl

/-- A semicolon ends every term. -/
theorem stops_semicolon : Stops loosestLevel (.mark .semicolon :: rest) :=
  .of_eq rfl (Token.not_continues (.inr (.inr rfl)) _)

section Declarations

variable (bound : Nat) (warnings : List Conversion) (rest : List Token)

/-- An initial value in front of the parser is read and bound to its target. -/
theorem initialValue_facing {type : Ty} {name : Located String} {value : Term} {e : Expr}
    {more : List Conversion} {warning : Option Conversion}
    (hspelling : value.Spelling loosestLevel tokens)
    (h : value.Elaborates given.meaning given.scope e more)
    (hassign : type.assign e.type = .ok warning)
    (hconstant : given.scope = globalScope → e.isInitializer = true)
    (hbound : (tokens ++ .mark .semicolon :: rest).length ≤ bound) :
    initialValue false type name (facing bound given warnings (tokens ++ .mark .semicolon :: rest)) =
      .ok (e, facing bound given (warnings ++ (more ++ warning.toList)) (.mark .semicolon :: rest)) := by
  have hconstant' : ¬ (given.scope = globalScope ∧ ¬ e.isInitializer = true) :=
    fun ⟨hglobal, hnot⟩ => hnot (hconstant hglobal)
  rw [initialValue, run_bind (expression_facing hspelling h warnings hbound stops_semicolon)]
  dsimp only
  rw [if_neg Bool.false_ne_true, run_bind (bindValue_facing h.location_eq hassign),
    run_bind scope_facing, if_neg hconstant', List.append_assoc]
  rfl

theorem declarationRest_facing {declared : Variable} {d : Declaration} {after : Setting}
    {more : List Conversion} (hinitial : Variable.SpellsInitial declared.initial tokens)
    (h : declared.Elaborates given d after more)
    (hbound : (tokens ++ .mark .semicolon :: rest).length ≤ bound) :
    declarationRest declared.external declared.type ⟨declared.name, nowhere⟩
      (facing bound given warnings (tokens ++ .mark .semicolon :: rest)) =
      .ok (d, facing bound after (warnings ++ more) (.mark .semicolon :: rest)) := by
  cases h with
  | plain hvalue hdeclare =>
      cases hinitial
      rw [declarationRest, List.nil_append, run_bind (optional_left (by simp)),
        if_neg Bool.false_ne_true, pure_bind]
      dsimp only
      rw [run_bind scope_facing, run_bind (declare_facing hdeclare), List.append_nil]
      rfl
  | initial hvalue hassign hconstant hdeclare =>
      cases hinitial with
      | some hspelling =>
          rw [List.cons_append, List.length_cons] at hbound
          rw [declarationRest, List.cons_append, run_bind optional_taken, if_pos rfl,
            map_eq_pure_bind, bind_assoc, run_bind (initialValue_facing bound warnings rest hspelling
              hvalue hassign hconstant (by omega)), pure_bind]
          dsimp only
          rw [run_bind scope_facing, run_bind (declare_facing hdeclare)]
          rfl

theorem declared_facing {declared : Variable} {d : Declaration} {after : Setting}
    {more : List Conversion} {type initial : List Token} (htype : declared.type.Spelling type)
    (hinitial : Variable.SpellsInitial declared.initial initial)
    (h : declared.Elaborates given d after more)
    (hbound : (type ++ .identifier declared.name :: (initial ++ .mark .semicolon :: rest)).length ≤
      bound) :
    (do
      let type ← Parser.type
      let name ← identifier
      if !declared.external then requireVariable type name
      declarationRest declared.external type name : Parser Declaration)
      (facing bound given warnings
        (type ++ .identifier declared.name :: (initial ++ .mark .semicolon :: rest))) =
      .ok (d, facing bound after (warnings ++ more) (.mark .semicolon :: rest)) := by
  rw [List.length_append, List.length_cons] at hbound
  have hrest := declarationRest_facing bound warnings rest hinitial h (by omega)
  rw [run_bind (type_facing htype (by omega) (by simp)), run_bind identifier_facing]
  split
  next hexternal =>
      have hvalue : declared.type.isVoid = false := by
        cases h with
        | plain hvalue => exact hvalue (by simpa using hexternal)
        | initial _ hassign =>
            exact Ty.isVoid_of_isScalar (Ty.Accepts.isScalar ⟨_, hassign⟩).1
      exact (run_bind (requireVariable_facing hvalue)).trans hrest
  next => exact hrest

/-- A declaration in front of the parser is read, and its symbol declared. -/
theorem declaration_facing {declared : Variable} {d : Declaration} {after : Setting}
    {more : List Conversion} (hspelling : declared.Spelling tokens)
    (h : declared.Elaborates given d after more)
    (hbound : (tokens ++ .mark .semicolon :: rest).length ≤ bound) :
    declaration (facing bound given warnings (tokens ++ .mark .semicolon :: rest)) =
      .ok (d, facing bound after (warnings ++ more) (.mark .semicolon :: rest)) := by
  obtain ⟨htype, hinitial⟩ := hspelling
  have hdeclared := declared_facing bound warnings rest htype hinitial h
  rw [declaration]
  cases hexternal : declared.external with
  | false =>
      rw [hexternal] at hdeclared hbound
      rw [Variable.externally, if_neg Bool.false_ne_true, List.append_assoc, List.cons_append]
        at hbound ⊢
      refine (run_bind (optional_left ?_)).trans (hdeclared hbound)
      obtain ⟨word, stars, rfl, hword, -⟩ := htype.begins
      rintro ⟨⟩
      cases hword
  | true =>
      rw [hexternal] at hdeclared hbound
      rw [Variable.externally, if_pos rfl, List.cons_append, List.append_assoc, List.cons_append]
        at hbound ⊢
      exact (run_bind optional_taken).trans (hdeclared (Nat.le_of_succ_le hbound))

end Declarations

/-! ## Statements -/

section Statements

variable (bound : Nat) (warnings : List Conversion) (rest : List Token)

theorem requireValue_facing {e : Expr} (h : e.type.isVoid = false) :
    checked (Checked.requireValue e) (facing bound given warnings coming) =
      .ok ((), facing bound given warnings coming) :=
  checked_facing (Expr.requireValue_eq_ok.mpr h)

theorem condition_facing {t : Term} {c : Expr} {more : List Conversion}
    (hspelling : t.Spelling loosestLevel tokens)
    (h : t.Elaborates given.meaning given.scope c more) (hvalue : c.type.isVoid = false)
    (hbound : (Term.parenthesized tokens ++ rest).length ≤ bound) :
    condition (facing bound given warnings (Term.parenthesized tokens ++ rest)) =
      .ok (c, facing bound given (warnings ++ more) rest) := by
  simp only [Term.parenthesized, List.cons_append, List.append_assoc, List.nil_append,
    List.length_cons] at hbound ⊢
  have hread := expression_facing hspelling h warnings (Nat.le_of_succ_le hbound)
    (.of_eq rfl (Token.not_continues (.inl rfl) _))
  rw [condition, run_bind expect_facing, run_bind hread, run_bind expect_facing,
    run_bind (requireValue_facing bound _ hvalue)]
  rfl

theorem expressionStatement_facing {value : Term} {e : Expr} {more : List Conversion}
    (hspelling : value.Spelling loosestLevel tokens)
    (h : value.Elaborates given.meaning given.scope e more)
    (hvalue : e.isCall = false → e.type.isVoid = false)
    (hbound : (tokens ++ .mark .semicolon :: rest).length ≤ bound) :
    expressionStatement (facing bound given warnings (tokens ++ .mark .semicolon :: rest)) =
      .ok (.expression e, facing bound given (warnings ++ more) rest) := by
  rw [expressionStatement, run_bind (expression_facing hspelling h warnings hbound stops_semicolon),
    run_bind expect_facing]
  split
  next hcall => exact run_bind (requireValue_facing bound _ (hvalue (by simpa using hcall)))
  next => rfl

theorem returnNothing_facing (h : given.returns.isVoid = true) :
    returnedValue (facing bound given warnings (.mark .semicolon :: rest)) =
      .ok (none, facing bound given warnings rest) := by
  rw [returnedValue, run_bind get_facing]
  dsimp only
  rw [run_bind optional_taken, if_pos rfl,
    show (facing bound given warnings (.mark .semicolon :: rest)).result.getD .void = given.returns
      from rfl, h]
  rfl

theorem returnValue_facing {value : Term} {e : Expr} {more : List Conversion}
    {warning : Option Conversion} (hspelling : value.Spelling loosestLevel tokens)
    (h : value.Elaborates given.meaning given.scope e more)
    (hassign : given.returns.assign e.type = .ok warning)
    (hbound : (tokens ++ .mark .semicolon :: rest).length ≤ bound) :
    returnedValue (facing bound given warnings (tokens ++ .mark .semicolon :: rest)) =
      .ok (some e, facing bound given (warnings ++ (more ++ warning.toList)) rest) := by
  have hvalue : given.returns.isVoid = false :=
    Ty.isVoid_of_isScalar (Ty.Accepts.isScalar ⟨_, hassign⟩).1
  rw [returnedValue, run_bind get_facing]
  dsimp only
  rw [run_bind (optional_left (hspelling.head?_ne rfl _)), if_neg Bool.false_ne_true,
    run_bind (expression_facing hspelling h warnings hbound stops_semicolon), run_bind expect_facing,
    show (facing bound given warnings (tokens ++ .mark .semicolon :: rest)).result.getD .void =
      given.returns from rfl, if_neg (by simp [hvalue]),
    run_bind (bindValue_facing h.location_eq hassign), List.append_assoc]
  rfl

/-- What begins like a term is a statement that consists of an expression. -/
theorem statementWithin_expression {count : Nat} {token : Token} (htoken : token.begins = true) :
    statementWithin (count + 1) (facing bound given warnings (token :: coming)) =
      expressionStatement (facing bound given warnings (token :: coming)) := by
  rw [statementWithin, run_bind peek_facing, List.head?_cons]
  cases token with
  | keyword => cases htoken
  | mark m => cases m <;> first | rfl | cases htoken
  | _ => rfl

/-- A block is read in a scope of its own, which is left behind it. -/
theorem block_facing {statement : Parser Statement} {inner : ScopeId} {entered : Scopes}
    {after : Setting} {body : List Statement} {more : List Conversion}
    (henter : given.scopes.enter given.scope = .ok (inner, entered))
    (hbody : blockRest statement bound
      (facing bound { given with scopes := entered, scope := inner } warnings coming) =
      .ok (body, facing bound after more rest)) :
    block statement (facing bound given warnings (.mark .openBrace :: coming)) =
      .ok ((inner, body, nowhere), facing bound { after with scope := given.scope } more rest) := by
  rw [block, run_bind expect_facing, run_bind last_facing, run_bind scope_facing,
    run_bind (enterScope_facing henter), run_bind (moveTo_facing inner), run_bind bound_facing,
    run_bind hbody, run_bind (moveTo_facing given.scope), run_bind last_facing]
  rfl

end Statements

mutual

/-- The tokens of a phrase that may stand under a condition are read as the statement that it
elaborates to. -/
theorem statement_facing : ∀ {given after : Setting} {phrase : Phrase} {statement : Statement}
    {more : List Conversion}, phrase.Elaborates given statement after more →
    phrase.isDeclaration = false → ∀ (tokens : List Token), phrase.Spelling tokens →
    ∀ (bound count : Nat) (warnings : List Conversion) (rest : List Token),
      tokens.length ≤ count → (tokens ++ rest).length ≤ bound →
      (phrase.isOpen = true → rest.head? ≠ some (.keyword .elseThen)) →
      statementWithin count (facing bound given warnings (tokens ++ rest)) =
        .ok (statement, facing bound after (warnings ++ more) rest)
  | _, _, _, _, _, .declaration _, hstatement => by cases hstatement
  | given, _, _, _, _, .expression he hvalue, _ => by
      intro _ hspelling bound count warnings rest hcount hbound _
      cases hspelling with
      | @expression _ tokens h =>
          simp only [List.length_append, List.length_singleton] at hcount
          obtain ⟨count, rfl⟩ : ∃ less, count = less + 1 := ⟨count - 1, by omega⟩
          obtain ⟨token, others, rfl, hbegins⟩ := h.begins
          rw [List.append_assoc] at hbound ⊢
          exact (statementWithin_expression bound warnings hbegins).trans
            (expressionStatement_facing bound warnings rest h he hvalue hbound)
  | given, _, _, _, _, .returnNothing hresult, _ => by
      intro _ hspelling bound count warnings rest hcount hbound _
      cases hspelling with
      | returnNothing =>
          obtain ⟨count, rfl⟩ : ∃ less, count = less + 1 :=
            ⟨count - 1, by simp only [List.length_cons] at hcount; omega⟩
          rw [List.cons_append, statementWithin, run_bind peek_facing, List.head?_cons]
          dsimp only
          rw [run_bind expect_facing, run_bind last_facing, List.singleton_append,
            run_bind (returnNothing_facing bound warnings rest hresult), run_bind scope_facing,
            List.append_nil]
          rfl
  | given, _, _, _, _, .returnValue he hassign, _ => by
      intro _ hspelling bound count warnings rest hcount hbound _
      cases hspelling with
      | returnValue h =>
          obtain ⟨count, rfl⟩ : ∃ less, count = less + 1 :=
            ⟨count - 1, by simp only [List.length_cons] at hcount; omega⟩
          simp only [List.cons_append, List.append_assoc, List.nil_append] at hbound ⊢
          rw [statementWithin, run_bind peek_facing, List.head?_cons]
          dsimp only
          rw [run_bind expect_facing, run_bind last_facing,
            run_bind (returnValue_facing bound warnings rest h he hassign
              (Nat.le_of_succ_le hbound)),
            run_bind scope_facing]
          rfl
  | given, _, _, _, _, .branch hc hvalue hy, _ => by
      intro _ hspelling bound count warnings rest hcount hbound hopen
      cases hspelling with
      | @branch _ _ tokens inside hcondition hyes hstatement =>
          obtain ⟨count, rfl⟩ : ∃ less, count = less + 1 :=
            ⟨count - 1, by simp only [List.length_cons] at hcount; omega⟩
          simp only [List.cons_append, List.append_assoc, List.length_cons, List.length_append]
            at hcount hbound ⊢
          have hfirst := condition_facing bound warnings (inside ++ rest) hcondition hc hvalue
            (by simp only [List.length_append]; omega)
          have hsecond := fun before => statement_facing hy hstatement inside hyes bound count before
            rest (by omega) (by rw [List.length_append]; omega) fun _ => hopen rfl
          rw [statementWithin, run_bind peek_facing, List.head?_cons]
          dsimp only
          rw [run_bind expect_facing, run_bind last_facing, run_bind hfirst, run_bind (hsecond _),
            run_bind (optional_left (hopen rfl)), if_neg Bool.false_ne_true, List.append_assoc]
          rfl
  | given, _, _, _, _, .choice hc hvalue hy hn, _ => by
      intro _ hspelling bound count warnings rest hcount hbound hopen
      cases hspelling with
      | @choice _ _ _ tokens inside other hcondition hyes hstatement hclosed hno hstatement' =>
          obtain ⟨count, rfl⟩ : ∃ less, count = less + 1 :=
            ⟨count - 1, by simp only [List.length_cons] at hcount; omega⟩
          simp only [List.cons_append, List.append_assoc, List.length_cons, List.length_append]
            at hcount hbound ⊢
          have hfirst := condition_facing bound warnings
            (inside ++ .keyword .elseThen :: (other ++ rest)) hcondition hc hvalue
            (by simp only [List.length_append, List.length_cons]; omega)
          have hsecond := fun before => statement_facing hy hstatement inside hyes bound count before
            (.keyword .elseThen :: (other ++ rest)) (by omega)
            (by simp only [List.length_append, List.length_cons]; omega)
            fun hyesOpen => absurd (hclosed.symm.trans hyesOpen) Bool.false_ne_true
          -- The first phrase is not open, so this `else` is not taken by a condition inside it.
          have hthird := fun before => statement_facing hn hstatement' other hno bound count before
            rest (by omega) (by rw [List.length_append]; omega) hopen
          rw [statementWithin, run_bind peek_facing, List.head?_cons]
          dsimp only
          rw [run_bind expect_facing, run_bind last_facing, run_bind hfirst, run_bind (hsecond _),
            run_bind optional_taken, if_pos rfl, run_bind (hthird _)]
          simp only [List.append_assoc]
          rfl
  | given, _, _, _, _, .loop hc hvalue hb, _ => by
      intro _ hspelling bound count warnings rest hcount hbound hopen
      cases hspelling with
      | @loop _ _ tokens inside hcondition hbody hstatement =>
          obtain ⟨count, rfl⟩ : ∃ less, count = less + 1 :=
            ⟨count - 1, by simp only [List.length_cons] at hcount; omega⟩
          simp only [List.cons_append, List.append_assoc, List.length_cons, List.length_append]
            at hcount hbound ⊢
          have hfirst := condition_facing bound warnings (inside ++ rest) hcondition hc hvalue
            (by simp only [List.length_append]; omega)
          have hsecond := fun before => statement_facing hb hstatement inside hbody bound count before
            rest (by omega) (by rw [List.length_append]; omega) hopen
          rw [statementWithin, run_bind peek_facing, List.head?_cons]
          dsimp only
          rw [run_bind expect_facing, run_bind last_facing, run_bind hfirst, run_bind (hsecond _),
            List.append_assoc]
          rfl
  | given, _, _, _, _, .block henter hbody, _ => by
      intro _ hspelling bound count warnings rest hcount hbound _
      cases hspelling with
      | @block _ inside hinside =>
          obtain ⟨count, rfl⟩ : ∃ less, count = less + 1 :=
            ⟨count - 1, by simp only [List.length_cons] at hcount; omega⟩
          simp only [List.cons_append, List.append_assoc, List.nil_append, List.length_cons,
            List.length_append, List.length_nil] at hcount hbound ⊢
          have hread := blockRest_facing hbody inside hinside bound count bound warnings rest
            (fun _ _ _ => rfl) (by omega) (by omega)
            (by simp only [List.length_append, List.length_cons]; omega)
          rw [statementWithin, run_bind peek_facing, List.head?_cons]
          dsimp only
          rw [run_bind (block_facing bound warnings rest henter hread)]
          rfl

/-- The tokens of phrases up to the end of their block are read one after the other. -/
theorem blockRest_facing : ∀ {given after : Setting} {phrases : List Phrase}
    {statements : List Statement} {more : List Conversion},
    Phrase.AllElaborate given phrases statements after more →
    ∀ (tokens : List Token), Phrase.AllSpelling phrases tokens →
    ∀ {parser : Parser Statement} (bound count fuel : Nat) (warnings : List Conversion)
      (rest : List Token),
      (∀ given warnings coming, parser (facing bound given warnings coming) =
        statementWithin count (facing bound given warnings coming)) →
      tokens.length ≤ count → tokens.length < fuel →
      (tokens ++ .mark .closeBrace :: rest).length ≤ bound →
      blockRest parser fuel
        (facing bound given warnings (tokens ++ .mark .closeBrace :: rest)) =
        .ok (statements, facing bound after (warnings ++ more) rest)
  | _, _, _, _, _, .nil => by
      intro _ hspelling _ bound count fuel warnings rest _ hcount hfuel hbound
      cases hspelling
      obtain ⟨fuel, rfl⟩ : ∃ less, fuel = less + 1 := ⟨fuel - 1, by omega⟩
      rw [List.nil_append, blockRest, run_bind optional_taken, if_pos rfl, List.append_nil]
      rfl
  | _, _, phrase :: _, _, _, .cons h hrest => by
      intro _ hspelling parser bound count fuel warnings rest hparser hcount hfuel hbound
      cases hspelling with
      | @cons _ _ tokens after hfirst hothers =>
          obtain ⟨token, _, htokens, hbegins, hdeclares⟩ := hfirst.begins
          have hhead : (tokens ++ (after ++ .mark .closeBrace :: rest)).head? = some token := by
            rw [htokens]
            rfl
          have hpositive : 0 < tokens.length := by
            rw [htokens]
            exact Nat.succ_pos _
          rw [List.length_append] at hcount hfuel
          rw [List.append_assoc] at hbound ⊢
          obtain ⟨fuel, rfl⟩ : ∃ less, fuel = less + 1 := ⟨fuel - 1, by omega⟩
          have hothers' := fun before => blockRest_facing hrest after hothers bound count fuel before
            rest hparser (by omega) (by omega)
            (by rw [List.length_append] at hbound; omega)
          have hclose : token ≠ .mark .closeBrace := by
            rintro rfl
            cases hbegins
          rw [blockRest, run_bind (optional_left (by rw [hhead]; simpa using hclose)),
            if_neg Bool.false_ne_true, run_bind peek_facing, hhead, hdeclares]
          cases hkind : phrase.isDeclaration with
          | true =>
              cases phrase with
              | declaration declared =>
                  cases h with
                  | declaration hd =>
                      cases hfirst with
                      | @declaration _ tokens hspelling =>
                          rw [List.append_assoc, List.singleton_append] at hbound ⊢
                          rw [if_pos rfl, run_bind (declaration_facing bound warnings _ hspelling hd
                            hbound), run_bind expect_facing, pure_bind]
                          dsimp only
                          rw [run_bind (hothers' _), List.append_assoc]
                          rfl
              | _ => cases hkind
          | false =>
              -- Neither a phrase nor the end of the block begins with `else`.
              have helse : (after ++ .mark .closeBrace :: rest).head? ≠ some (.keyword .elseThen) :=
                hothers.head?_ne rfl (by simp)
              have hstatement := statement_facing h hkind tokens hfirst bound count warnings _
                (by omega) hbound fun _ => helse
              rw [if_neg Bool.false_ne_true, run_bind ((hparser _ _ _).trans hstatement)]
              dsimp only
              rw [run_bind (hothers' _), List.append_assoc]
              rfl

end

/-! ## Functions and items -/

section Items

variable (bound : Nat) (warnings : List Conversion) (rest : List Token)

theorem parameter_facing {scope : ScopeId} {p : Parameter} {symbol : Symbol} {scopes : Scopes}
    (hspelling : p.Spelling tokens) (hvalue : p.type.isVoid = false)
    (hdeclare : given.scopes.declare scope p.name nowhere p.type false = .ok (symbol, scopes))
    (hbound : tokens.length ≤ bound) :
    parameter scope (facing bound given warnings (tokens ++ rest)) =
      .ok (p.type, facing bound { given with scopes } warnings rest) := by
  obtain ⟨htype⟩ := hspelling
  rw [List.length_append] at hbound
  rw [parameter, List.append_assoc, run_bind (type_facing htype (by omega) (by simp)),
    List.singleton_append, run_bind identifier_facing, run_bind (requireVariable_facing hvalue),
    run_bind (declare_facing hdeclare)]
  rfl

theorem parameters_facing {scope : ScopeId} {parts : List (Parameter × List Token)}
    {given : Setting} {scopes : Scopes} (hsome : parts ≠ [])
    (hspelling : ∀ part ∈ parts, part.1.Spelling part.2)
    (h : Parameter.AllElaborate scope given.scopes (parts.map (·.1)) scopes) (fuel : Nat)
    (hfuel : parts.length ≤ fuel)
    (hbound : (Term.commaSeparated (parts.map (·.2))).length ≤ bound) :
    separated (parameter scope) fuel (facing bound given warnings
        (Term.commaSeparated (parts.map (·.2)) ++ .mark .closeParen :: rest)) =
      .ok ((parts.map (·.1)).map (·.type),
        facing bound { given with scopes } warnings (.mark .closeParen :: rest)) := by
  induction parts generalizing given fuel with
  | nil => exact absurd rfl hsome
  | cons part others ih =>
      obtain ⟨hfirst, hothers⟩ := List.forall_mem_cons.mp hspelling
      rw [List.length_cons] at hfuel
      obtain ⟨fuel, rfl⟩ : ∃ less, fuel = less + 1 := ⟨fuel - 1, by omega⟩
      rw [List.map_cons] at h
      obtain ⟨⟨type, name⟩, tokens⟩ := part
      cases h with
      | cons hvalue hdeclare hrest =>
          cases others with
          | nil =>
              cases hrest
              rw [List.map_singleton, Term.commaSeparated_singleton] at hbound ⊢
              rw [separated,
                run_bind (parameter_facing bound warnings _ hfirst hvalue hdeclare hbound),
                run_bind (optional_left (by simp)), if_neg Bool.false_ne_true]
              rfl
          | cons second others =>
              have hcommas : Term.commaSeparated
                  (((⟨type, name⟩, tokens) :: second :: others : List (Parameter × List Token)).map
                    (·.2)) =
                  tokens ++ .mark .comma :: Term.commaSeparated ((second :: others).map (·.2)) :=
                Term.commaSeparated_cons _ _ _
              rw [hcommas] at hbound ⊢
              rw [List.length_append, List.length_cons] at hbound
              rw [List.append_assoc, List.cons_append, separated,
                run_bind (parameter_facing bound warnings _ hfirst hvalue hdeclare
                  (show tokens.length ≤ bound by omega)),
                run_bind optional_taken, if_pos rfl,
                run_bind (ih (by simp) hothers hrest fuel (by omega) (by omega))]
              rfl

/-- Before a name stand keywords and stars, so what is defined is seen behind the name. -/
theorem beginsFunction_after {before : List Token}
    (hbefore : ∀ token ∈ before, beforeName token = true) (name : String) (rest : List Token) :
    beginsFunction (unplacedTokens (before ++ .identifier name :: rest)) =
      decide (rest.head? = some (.mark .openParen)) := by
  have hdrop : (unplacedTokens (before ++ .identifier name :: rest)).dropWhile (beforeName ·.value) =
      ⟨.identifier name, nowhere⟩ :: unplacedTokens rest := by
    rw [unplacedTokens, List.map_append, List.dropWhile_append_of_pos]
    · rfl
    · intro token htoken
      obtain ⟨value, hvalue, rfl⟩ := List.mem_map.mp htoken
      exact hbefore value hvalue
  rw [beginsFunction, hdrop]
  cases rest with
  | nil => rfl
  | cons token rest =>
      cases token with
      | mark m => cases m <;> rfl
      | _ => rfl

theorem beforeName_of_type {type : Ty} (h : type.Spelling tokens) :
    ∀ token ∈ tokens, beforeName token = true := by
  obtain ⟨word, stars, rfl, -, hstars⟩ := h.begins
  intro token htoken
  rcases List.mem_cons.mp htoken with rfl | htoken
  · rfl
  · rw [hstars token htoken]
    rfl

/-- The body of a function is read in a scope inside that of its parameters. -/
theorem functionRest_facing {result : Ty} {name : String} {scope inner : ScopeId} {types : List Ty}
    {parameterized reserved declared opened : Scopes} {symbol : Symbol} {body : List Phrase}
    {b : List Statement} {final : Setting} {more : List Conversion} {inside : List Token}
    (hreserve : parameterized.reserve scope returnAddressSize = .ok reserved)
    (hdeclare : reserved.declare globalScope name nowhere (.function result types) false =
      .ok (symbol, declared))
    (hopen : declared.enter scope = .ok (inner, opened))
    (hb : Phrase.AllElaborate ⟨opened, inner, some result⟩ body b final more)
    (hbody : Phrase.AllSpelling body inside)
    (hbound : (inside ++ .mark .closeBrace :: rest).length ≤ bound) :
    functionRest result ⟨name, nowhere⟩ scope types
        (facing bound ⟨parameterized, globalScope, none⟩ warnings
          (.mark .closeParen :: .mark .openBrace :: (inside ++ .mark .closeBrace :: rest))) =
      .ok (⟨symbol, scope, inner, b, nowhere⟩,
        facing bound ⟨final.scopes, globalScope, none⟩ (warnings ++ more) rest) := by
  have hlength := hbound
  rw [List.length_append, List.length_cons] at hlength
  have hread : blockRest statement bound _ = _ :=
    blockRest_facing hb inside hbody bound bound bound warnings rest
      (fun _ _ _ => run_bind bound_facing) (by omega) (by omega) hbound
  have hblock : block statement (facing bound ⟨declared, scope, some result⟩ warnings _) = _ :=
    block_facing bound warnings rest hopen hread
  rw [functionRest, run_bind expect_facing, run_bind (reserve_facing hreserve),
    run_bind (declare_facing hdeclare), run_bind (move_facing scope (some result)),
    run_bind hblock]
  dsimp only
  rw [run_bind (move_facing globalScope none)]
  rfl

theorem function_facing {scopes after : Scopes} {defined : Routine} {f : Function}
    {more : List Conversion} (hspelling : defined.Spelling tokens)
    (h : defined.Elaborates scopes f after more) (hbound : (tokens ++ rest).length ≤ bound) :
    function (facing bound ⟨scopes, globalScope, none⟩ warnings (tokens ++ rest)) =
      .ok (f, facing bound ⟨after, globalScope, none⟩ (warnings ++ more) rest) := by
  cases hspelling with
  | @mk result name parts body type inside hresult hparts hbody =>
      generalize hlist : parts.map (·.1) = parameters at h
      cases h with
      | mk henter hparameters hreserve hdeclare hopen hb =>
          subst hlist
          simp only [Term.parenthesized, List.append_assoc, List.cons_append, List.nil_append,
            List.length_append, List.length_cons] at hbound ⊢
          have hrest := functionRest_facing bound warnings rest hreserve hdeclare hopen hb hbody
            (by simp only [List.length_append, List.length_cons]; omega)
          rw [function, run_bind (type_facing hresult (by omega) (by simp)),
            run_bind identifier_facing, run_bind expect_facing,
            run_bind (enterScope_facing henter), run_bind peek_facing]
          cases parts with
          | nil =>
              cases hparameters
              rw [List.map_nil, Term.commaSeparated_nil, List.nil_append, if_pos List.head?_cons,
                pure_bind]
              exact hrest
          | cons part others =>
              have hhead : (Term.commaSeparated ((part :: others).map (·.2)) ++ .mark .closeParen ::
                  .mark .openBrace :: (inside ++ .mark .closeBrace :: rest)).head? ≠
                  some (.mark .closeParen) := by
                obtain ⟨word, stars, hpart⟩ := (hparts part List.mem_cons_self).begins
                rw [List.map_cons, Term.head?_commaSeparated (by simp [hpart]), hpart]
                simp
              have hlength : (part :: others).length ≤ bound := by
                have hle : ((part :: others).map (·.2)).length ≤ _ :=
                  Term.length_le_commaSeparated fun list hlist => by
                    obtain ⟨given, hgiven, rfl⟩ := List.mem_map.mp hlist
                    obtain ⟨word, stars, htokens⟩ := (hparts given hgiven).begins
                    simp [htokens]
                rw [List.length_map] at hle
                omega
              rw [if_neg hhead, run_bind bound_facing, run_bind (parameters_facing bound warnings _
                (by simp) hparts hparameters bound hlength (by omega))]
              exact hrest

theorem item_facing {scopes after : Scopes} {entry : Entry} {i : Item} {more : List Conversion}
    (hspelling : entry.Spelling tokens) (h : entry.Elaborates scopes i after more)
    (hbound : (tokens ++ rest).length ≤ bound) :
    item (facing bound ⟨scopes, globalScope, none⟩ warnings (tokens ++ rest)) =
      .ok (i, facing bound ⟨after, globalScope, none⟩ (warnings ++ more) rest) := by
  rw [item, run_bind get_facing]
  cases h with
  | @global declared d after _ hd =>
      cases hspelling with
      | @global _ tokens hspelling =>
          obtain ⟨hscope, hresult⟩ := hd.keeps
          have hafter : after = ⟨after.scopes, globalScope, none⟩ :=
            congrArg₂ (Setting.mk after.scopes) hscope hresult
          have hvariable : beginsFunction (unplacedTokens (tokens ++ [.mark .semicolon] ++ rest)) =
              false := by
            obtain ⟨htype, hinitial⟩ := hspelling
            rw [Variable.externally_append, List.append_assoc, List.append_assoc, List.cons_append,
              beginsFunction_after]
            · generalize declared.initial = value at hinitial
              cases hinitial <;> simp
            · intro token htoken
              unfold Variable.externally at htoken
              split at htoken
              · rcases List.mem_cons.mp htoken with rfl | htoken
                · rfl
                · exact beforeName_of_type htype token htoken
              · exact beforeName_of_type htype token htoken
          rw [show (facing bound ⟨scopes, globalScope, none⟩ warnings
            (tokens ++ [.mark .semicolon] ++ rest)).tokens = unplacedTokens _ from rfl, hvariable,
            if_neg Bool.false_ne_true]
          rw [List.append_assoc, List.singleton_append] at hbound ⊢
          rw [run_bind (declaration_facing bound warnings rest hspelling hd hbound),
            run_bind expect_facing, ← hafter]
          rfl
  | function hf =>
      cases hspelling with
      | function hspelling =>
          have hfunction : beginsFunction (unplacedTokens (tokens ++ rest)) = true := by
            obtain ⟨hresult, -, -⟩ := hspelling
            rw [List.append_assoc, List.cons_append,
              beginsFunction_after (beforeName_of_type hresult)]
            rfl
          rw [show (facing bound ⟨scopes, globalScope, none⟩ warnings (tokens ++ rest)).tokens =
            unplacedTokens _ from rfl, hfunction, if_pos rfl,
            run_bind (function_facing bound warnings rest hspelling hf hbound)]
          rfl

theorem items_facing {scopes after : Scopes} {entries : List Entry} {list : List Item}
    {more : List Conversion} (h : Entry.AllElaborate scopes entries list after more)
    (hspelling : Entry.AllSpelling entries tokens) (hbound : tokens.length ≤ bound) (count : Nat)
    (hcount : tokens.length ≤ count) :
    items count (facing bound ⟨scopes, globalScope, none⟩ warnings tokens) =
      .ok (list, facing bound ⟨after, globalScope, none⟩ (warnings ++ more) []) := by
  induction h generalizing tokens warnings count with
  | nil =>
      cases hspelling
      rw [List.append_nil]
      cases count with
      | zero => rfl
      | succ count =>
          rw [items, run_bind peek_facing]
          rfl
  | cons h hrest ih =>
      cases hspelling with
      | @cons _ _ tokens after hfirst hothers =>
          obtain ⟨word, others, rfl⟩ := hfirst.begins
          simp only [List.cons_append, List.length_cons, List.length_append] at hbound hcount
          obtain ⟨count, rfl⟩ : ∃ less, count = less + 1 := ⟨count - 1, by omega⟩
          have hitem := item_facing bound warnings after hfirst h
            (by simp only [List.cons_append, List.length_cons, List.length_append]; omega)
          rw [items, run_bind peek_facing, if_neg (by simp), run_bind hitem,
            run_bind (ih _ hothers (by omega) count (by omega)), List.append_assoc]
          rfl

end Items

theorem program_facing {scopes : Scopes} {entries : List Entry} {list : List Item}
    {more : List Conversion} (hspelling : Entry.AllSpelling entries tokens)
    (h : Entry.AllElaborate .initial entries list scopes more) (hmain : scopes.HasMain) :
    Parser.program (facing tokens.length .outermost [] tokens) =
      .ok (list, facing tokens.length ⟨scopes, globalScope, none⟩ more []) := by
  obtain ⟨main, hlookup, hfunction⟩ := hmain
  have hitems := items_facing tokens.length [] h hspelling (Nat.le_refl _) tokens.length
    (Nat.le_refl _)
  rw [program, run_bind bound_facing]
  refine (run_bind hitems).trans ?_
  rw [run_bind get_facing, show (facing tokens.length ⟨scopes, globalScope, none⟩ ([] ++ more)
    []).scopes = scopes from rfl, hlookup]
  dsimp only
  rw [if_pos hfunction]
  rfl

end AccumulatorC.Parser

namespace AccumulatorC

/-- The tokens that spell a source are read as the program that it elaborates to, up to places. -/
theorem Program.ofTokens_of_source {tokens : List (Located Token)} {entries : List Entry}
    {program : Program} {more : List Conversion}
    (hspelling : Entry.AllSpelling entries (tokens.map (·.value)))
    (h : Entry.AllElaborate .initial entries program.items program.scopes more)
    (hmain : program.scopes.HasMain) :
    ∃ parsed, Program.ofTokens tokens = .ok parsed ∧ parsed.program.unplaced = program ∧
      parsed.warnings.map (·.value) = more := by
  -- The reading without places is known step by step, and tells what the one with places gives.
  have hrun := ofTokens_unplaced tokens
  rw [← unplacedTokens_value, ofTokens_facing, Parser.program_facing hspelling h hmain] at hrun
  dsimp only at hrun
  split at hrun
  next parsed hparsed =>
    obtain ⟨hprogram, hwarnings⟩ := Parsed.mk.inj (Except.ok.inj hrun)
    refine ⟨parsed, hparsed, hprogram.symm, ?_⟩
    have hvalues := congrArg (List.map (·.value)) hwarnings
    rw [List.map_map] at hvalues
    exact hvalues.symm.trans (Parser.map_value_placeless more)
  next => cases hrun

end AccumulatorC
