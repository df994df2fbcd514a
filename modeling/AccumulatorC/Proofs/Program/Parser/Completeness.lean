import AccumulatorC.Proofs.Program.Parser.Facing
import AccumulatorC.Proofs.Program.Parser.Spelling

/-!
# Terms are read as the grammar says

The tokens that spell a term are read as the expression that it elaborates to, whatever follows them
that does not go on with the term. Operators of one level are read in rounds that each take one
operator and its right operand, so a term whose outermost operator is one of them is read by the
rounds that its left operand has begun.
-/

namespace AccumulatorC

/-! ## Operators and their marks -/

theorem operator?_leading {token : Option Token} {op : UnaryOp} :
    operator? leadingOperators token = some op ↔ token = some (.mark op.mark) := by
  constructor
  · intro h
    obtain ⟨mark, rfl, hlookup⟩ := Parser.Takes.operator?_eq_some h
    cases mark <;> cases hlookup <;> rfl
  · rintro rfl
    cases op <;> rfl

/-- The operators of a level between operands, from the tightest one on. -/
theorem operator?_binary {k : Nat} {token : Option Token} {op : BinaryOp} :
    operator? (operatorLevels.getD k []) token = some op ↔
      token = some (.mark op.mark) ∧ op.level = k + 3 := by
  constructor
  · intro h
    obtain ⟨mark, rfl, hlookup⟩ := Parser.Takes.operator?_eq_some h
    match k with
    | 0 | 1 | 2 | 3 | 4 | 5 => cases mark <;> cases hlookup <;> exact ⟨rfl, rfl⟩
    | k + 6 => cases hlookup
  · rintro ⟨rfl, hlevel⟩
    obtain rfl : k = op.level - 3 := by omega
    cases op <;> rfl

theorem trailingStep?_step {token : Option Token} {op back : UnaryOp} :
    Parser.trailingStep? token = some (op, back) ↔
      ∃ step : Step, token = some (.mark step.mark) ∧ op = step.op ∧ back = step.back := by
  constructor
  · intro h
    unfold Parser.trailingStep? at h
    split at h
    next => cases h; exact ⟨.increment, rfl, rfl, rfl⟩
    next => cases h; exact ⟨.decrement, rfl, rfl, rfl⟩
    next => cases h
  · rintro ⟨step, rfl, rfl, rfl⟩
    cases step <;> rfl

/-! ## Where terms end -/

/-- A token goes on with a term of a level. -/
inductive Token.Continues (level : Nat) : Token → Prop
  /-- A name is called. -/
  | call : Continues level (.mark .openParen)
  | step (step : Step) (h : trailingLevel ≤ level) : Continues level (.mark step.mark)
  | binary (op : BinaryOp) (h : op.level ≤ level) : Continues level (.mark op.mark)
  | assign (h : loosestLevel ≤ level) : Continues level (.mark .assign)

/-- What follows does not go on with a term of a level. -/
def Stops (level : Nat) (rest : List Token) : Prop :=
  ∀ token, rest.head? = some token → ¬ token.Continues level

namespace Stops

variable {level : Nat} {rest : List Token}

theorem tighter {tight : Nat} (h : Stops level rest) (hle : tight ≤ level) : Stops tight rest := by
  intro token hhead hcontinues
  refine h token hhead ?_
  cases hcontinues with
  | call => exact .call
  | step step htrailing => exact .step step (htrailing.trans hle)
  | binary op hop => exact .binary op (hop.trans hle)
  | assign hassign => exact .assign (hassign.trans hle)

/-- Operators between operands are looser than all that stand before one. -/
theorem ofTrailing (h : Stops trailingLevel rest) : Stops leadingLevel rest := by
  intro token hhead hcontinues
  refine h token hhead ?_
  cases hcontinues with
  | call => exact .call
  | step step _ => exact .step step (Nat.le_refl _)
  | binary op hop => exact absurd op.level_bounds.1 (Nat.not_lt.mpr hop)
  | assign hassign => exact absurd hassign (by decide)

theorem of_eq {token : Token} (hhead : rest.head? = some token)
    (h : ¬ token.Continues level) : Stops level rest := by
  rintro found hfound
  rw [hhead, Option.some.injEq] at hfound
  exact hfound ▸ h

theorem not_call (h : Stops level rest) : rest.head? ≠ some (.mark .openParen) :=
  fun hhead => h _ hhead .call

theorem not_assign (h : Stops loosestLevel rest) : rest.head? ≠ some (.mark .assign) :=
  fun hhead => h _ hhead (.assign (Nat.le_refl _))

theorem no_step (h : Stops trailingLevel rest) : Parser.trailingStep? rest.head? = none := by
  cases hstep : Parser.trailingStep? rest.head? with
  | none => rfl
  | some found =>
      obtain ⟨step, hhead, -⟩ := trailingStep?_step.mp hstep
      exact absurd (.step step (Nat.le_refl _)) (h _ hhead)

theorem no_operator {k : Nat} (h : Stops (k + 3) rest) :
    operator? (operatorLevels.getD k []) rest.head? = none := by
  cases hop : operator? (operatorLevels.getD k []) rest.head? with
  | none => rfl
  | some op =>
      obtain ⟨hhead, hlevel⟩ := operator?_binary.mp hop
      exact absurd (.binary op (Nat.le_of_eq hlevel)) (h _ hhead)

end Stops

/-- A mark that is no operator ends every term. -/
theorem Token.not_continues {mark : Mark}
    (h : mark = .closeParen ∨ mark = .comma ∨ mark = .semicolon) (level : Nat) :
    ¬ (Token.mark mark).Continues level := by
  intro hcontinues
  rcases h with rfl | rfl | rfl <;> generalize htoken : Token.mark _ = token at hcontinues
  all_goals
    cases hcontinues with
    | call => cases htoken
    | step step _ => cases step <;> cases htoken
    | binary op _ => cases op <;> cases htoken
    | assign => cases htoken

/-- An operator between operands does not go on with a tighter term. -/
theorem BinaryOp.not_continues {op : BinaryOp} {level : Nat} (h : level < op.level) :
    ¬ (Token.mark op.mark).Continues level := by
  intro hcontinues
  generalize htoken : Token.mark op.mark = token at hcontinues
  cases hcontinues with
  | call => cases op <;> cases htoken
  | step step _ => cases op <;> cases step <;> cases htoken
  | binary other hother =>
      have hsame : op = other := by cases op <;> cases other <;> first | rfl | cases htoken
      exact absurd h (Nat.not_lt.mpr (hsame ▸ hother))
  | assign => cases op <;> cases htoken

/-- A step does not go on with a term without operators. -/
theorem Step.not_continues (step : Step) : ¬ (Token.mark step.mark).Continues 0 := by
  intro hcontinues
  generalize htoken : Token.mark step.mark = token at hcontinues
  cases hcontinues with
  | call => cases step <;> cases htoken
  | step _ h => cases h
  | binary op h => exact absurd op.level_bounds.1 (by omega)
  | assign h => exact absurd h (by decide)

theorem Token.assign_not_continues : ¬ (Token.mark .assign).Continues binaryLevel := by
  intro hcontinues
  generalize htoken : Token.mark .assign = token at hcontinues
  cases hcontinues with
  | call => cases htoken
  | step step _ => cases step <;> cases htoken
  | binary op _ => cases op <;> cases htoken
  | assign h => exact absurd h (by decide)

namespace Term.Spelling

variable {level : Nat} {t : Term} {tokens : List Token}

/-- A term without operators before it begins with none. -/
theorem no_leading (h : Spelling level t tokens) (hlevel : level ≤ trailingLevel)
    (rest : List Token) : operator? leadingOperators (tokens ++ rest).head? = none := by
  induction h generalizing rest with
  | trailing step h ih =>
      rw [List.append_assoc]
      exact ih (Nat.le_refl _) _
  | leading => exact absurd hlevel (by decide)
  | binary op => exact absurd op.level_bounds.1 (by simp only [leadingLevel, trailingLevel] at *; omega)
  | assign => exact absurd hlevel (by decide)
  | looser _ _ ih => exact ih (Nat.le_of_succ_le hlevel) rest
  | _ => rfl

end Term.Spelling

/-! ## The parsers of the levels -/

namespace Parser

/-- What reads terms up to a level between operands, with what reads any term given. -/
def upTo (nested : Parser Expr) (count : Nat) : Nat → Parser Expr
  | 0 => primary nested
  | 1 => trailing nested
  | 2 => leading nested count
  | k + 3 => operatorLevel (upTo nested count (k + 2)) (operatorLevels.getD k [])

/-- The levels of all binary operators are those up to the loosest of them. -/
theorem operators_eq_upTo (nested : Parser Expr) (count : Nat) :
    operators nested count = upTo nested count binaryLevel := rfl

/-- The rounds in which the operators of a level are read after a first operand. -/
def rounds (nested : Parser Expr) (count : Nat) : Nat → Nat → Expr → Parser Expr
  | 1, fuel, e => trailingSteps nowhere fuel e
  | k + 3, fuel, e =>
      operatorTail (upTo nested count (k + 2)) (operatorLevels.getD k []) nowhere fuel e
  | _, _, e => pure e

section Rounds

variable {nested : Parser Expr} {count bound fuel level : Nat} {given : Setting}
  {warnings : List Conversion} {rest : List Token} {e : Expr}

/-- There are no rounds before tokens that do not go on. -/
theorem rounds_stop (h : Stops level rest) :
    rounds nested count level fuel e (facing bound given warnings rest) =
      .ok (e, facing bound given warnings rest) := by
  match level with
  | 0 | 2 => rfl
  | 1 =>
      cases fuel with
      | zero => rfl
      | succ fuel =>
          rw [rounds, trailingSteps, run_bind peek_facing, h.no_step]
          rfl
  | k + 3 =>
      cases fuel with
      | zero => rfl
      | succ fuel =>
          rw [rounds, operatorTail, run_bind peek_facing, h.no_operator]
          rfl

end Rounds

/-- The tokens of a term are read as what it elaborates to: by the parser of its level up to the
rounds after it, and if it is of the loosest level, as an expression. -/
structure Accepts (bound : Nat) (given : Setting) (level : Nat) (t : Term) (tokens : List Token) :
    Prop where
  rounds : level ≤ binaryLevel → ∀ {e more}, t.Elaborates given.meaning given.scope e more →
    ∀ {n count rest warnings result}, tokens.length ≤ n + 1 → tokens.length ≤ count →
      (tokens ++ rest).length ≤ bound → Stops (level - 1) rest →
      (∀ fuel, rest.length ≤ fuel →
        Parser.rounds (expressionWithin n) count level fuel e
          (facing bound given (warnings ++ more) rest) = result) →
      upTo (expressionWithin n) count level (facing bound given warnings (tokens ++ rest)) = result
  whole : level = loosestLevel → ∀ {e more}, t.Elaborates given.meaning given.scope e more →
    ∀ n rest warnings, tokens.length ≤ n + 1 → (tokens ++ rest).length ≤ bound →
      Stops loosestLevel rest →
      expressionWithin (n + 1) (facing bound given warnings (tokens ++ rest)) =
        .ok (e, facing bound given (warnings ++ more) rest)

namespace Accepts

variable {bound : Nat} {given : Setting} {level : Nat} {t : Term} {tokens : List Token}

/-- Before tokens that do not go on, a term is read alone. -/
theorem alone (h : Accepts bound given level t tokens) (hlevel : level ≤ binaryLevel) {e : Expr}
    {more : List Conversion} (he : t.Elaborates given.meaning given.scope e more) (n count : Nat)
    (rest : List Token) (warnings : List Conversion) (hn : tokens.length ≤ n + 1)
    (hcount : tokens.length ≤ count) (hbound : (tokens ++ rest).length ≤ bound)
    (hrest : Stops level rest) :
    upTo (expressionWithin n) count level (facing bound given warnings (tokens ++ rest)) =
      .ok (e, facing bound given (warnings ++ more) rest) :=
  h.rounds hlevel he hn hcount hbound (hrest.tighter (Nat.sub_le _ _)) fun _ _ => rounds_stop hrest

/-- What is read without operators is accepted at level 0. -/
theorem ofPrimary (h : ∀ {e more}, t.Elaborates given.meaning given.scope e more →
    ∀ {n rest warnings}, tokens.length ≤ n + 1 → (tokens ++ rest).length ≤ bound → Stops 0 rest →
      primary (expressionWithin n) (facing bound given warnings (tokens ++ rest)) =
        .ok (e, facing bound given (warnings ++ more) rest)) :
    Accepts bound given 0 t tokens where
  rounds _ _ _ he _ _ _ _ _ hn _ hbound hrest hresult :=
    (h he hn hbound hrest).trans (hresult _ (Nat.le_refl _))
  whole hlevel := by cases hlevel

/-! ### Terms without operators -/

theorem integer (value : UInt16) : Accepts bound given 0 (.integer value) [.integer value] :=
  ofPrimary fun he _ _ _ _ _ _ => by
    cases he
    rw [List.append_nil]
    exact (run_bind next_facing).trans literal_facing

theorem character (byte : UInt8) : Accepts bound given 0 (.character byte) [.character byte] :=
  ofPrimary fun he _ _ _ _ _ _ => by
    cases he
    rw [List.append_nil]
    exact (run_bind next_facing).trans literal_facing

theorem string (bytes : List UInt8) : Accepts bound given 0 (.string bytes) [.string bytes] :=
  ofPrimary fun he _ _ _ _ _ _ => by
    cases he
    rw [List.append_nil]
    exact (run_bind next_facing).trans literal_facing

theorem name (text : String) : Accepts bound given 0 (.name text) [.identifier text] :=
  ofPrimary fun he _ rest _ _ _ hrest => by
    cases he with
    | name hmeaning hvariable =>
        rw [List.append_nil, List.singleton_append, primary, run_bind next_facing]
        dsimp only
        rw [run_bind peek_facing, if_neg hrest.not_call, use, run_bind (resolve_facing hmeaning),
          if_neg (by simp [hvariable]), run_bind scope_facing]
        rfl

/-- Arguments are read one after the other. -/
theorem separated {arguments : List (Term × List Token)} (hsome : arguments ≠ [])
    (hspelling : ∀ argument ∈ arguments, argument.1.Spelling loosestLevel argument.2)
    (h : ∀ argument ∈ arguments, Accepts bound given loosestLevel argument.1 argument.2)
    {parts : List (Term × Expr × List Conversion)}
    (hsame : parts.map (·.1) = arguments.map (·.1))
    (hparts : ∀ part ∈ parts, part.1.Elaborates given.meaning given.scope part.2.1 part.2.2)
    {n : Nat} (fuel : Nat) {rest : List Token} (warnings : List Conversion)
    (hn : (Term.commaSeparated (arguments.map (·.2))).length ≤ n + 1)
    (hfuel : (Term.commaSeparated (arguments.map (·.2))).length ≤ fuel)
    (hbound : (Term.commaSeparated (arguments.map (·.2)) ++ .mark .closeParen :: rest).length ≤ bound) :
    Parser.separated (expressionWithin (n + 1)) fuel
      (facing bound given warnings
        (Term.commaSeparated (arguments.map (·.2)) ++ .mark .closeParen :: rest)) =
      .ok (parts.map (·.2.1),
        facing bound given (warnings ++ parts.flatMap (·.2.2)) (.mark .closeParen :: rest)) := by
  induction arguments generalizing parts fuel warnings with
  | nil => exact absurd rfl hsome
  | cons argument others ih =>
      obtain ⟨part, parts, rfl⟩ : ∃ part rest, parts = part :: rest := by
        cases parts with
        | nil => cases hsame
        | cons part parts => exact ⟨part, parts, rfl⟩
      obtain ⟨hterm, hothers⟩ : part.1 = argument.1 ∧ parts.map (·.1) = others.map (·.1) :=
        List.cons.inj hsame
      obtain ⟨hpart, hparts⟩ := List.forall_mem_cons.mp hparts
      obtain ⟨haccepts, h⟩ := List.forall_mem_cons.mp h
      obtain ⟨hfirst, hspelling⟩ := List.forall_mem_cons.mp hspelling
      have hlength := hfirst.length_pos
      rw [hterm] at hpart
      cases others with
      | nil =>
          obtain rfl : parts = [] := List.map_eq_nil_iff.mp hothers
          rw [List.map_singleton, Term.commaSeparated_singleton] at hn hfuel hbound ⊢
          obtain ⟨fuel, rfl⟩ : ∃ less, fuel = less + 1 := ⟨fuel - 1, by omega⟩
          have hfirst := haccepts.whole rfl hpart _ _ warnings hn hbound
            (.of_eq rfl (Token.not_continues (.inl rfl) _))
          rw [Parser.separated, run_bind hfirst, run_bind (optional_left (by simp)),
            if_neg Bool.false_ne_true, run_pure]
          simp
      | cons second others =>
          have hcommas : Term.commaSeparated ((argument :: second :: others).map (·.2)) =
              argument.2 ++ .mark .comma :: Term.commaSeparated ((second :: others).map (·.2)) :=
            Term.commaSeparated_cons _ _ _
          rw [hcommas] at hn hfuel hbound ⊢
          simp only [List.append_assoc, List.cons_append, List.length_append, List.length_cons]
            at hn hfuel hbound ⊢
          obtain ⟨fuel, rfl⟩ : ∃ less, fuel = less + 1 := ⟨fuel - 1, by omega⟩
          have hfirst := haccepts.whole rfl hpart n
            (.mark .comma :: (Term.commaSeparated ((second :: others).map (·.2)) ++
              .mark .closeParen :: rest)) warnings (by omega)
            (by simp only [List.length_append, List.length_cons]; omega)
            (.of_eq rfl (Token.not_continues (.inr (.inl rfl)) _))
          have hrest := ih (by simp) hspelling h hothers hparts fuel (warnings ++ part.2.2)
            (by omega) (by omega) (by rw [List.length_append, List.length_cons]; omega)
          rw [Parser.separated, run_bind hfirst, run_bind optional_taken, if_pos rfl,
            run_bind hrest, run_pure]
          simp

theorem call {function : String} {arguments : List (Term × List Token)}
    (hspelling : ∀ argument ∈ arguments, argument.1.Spelling loosestLevel argument.2)
    (h : ∀ argument ∈ arguments, Accepts bound given loosestLevel argument.1 argument.2) :
    Accepts bound given 0 (.call function (arguments.map (·.1)))
      (.identifier function :: Term.parenthesized
        (Term.commaSeparated (arguments.map (·.2)))) := by
  refine ofPrimary fun {e more} he {n rest warnings} hn hbound _ => ?_
  generalize hterms : arguments.map (·.1) = terms at he
  cases he with
  | @call _ symbol result parameters parts stored hmeaning htype hparts hstores =>
      have hcalled : Expr.called given.scope (.span nowhere nowhere) symbol result parameters
          (parts.map (·.2.1)) =
          .ok ⟨.call ⟨result, given.scope, false, nowhere⟩ symbol (parts.map (·.2.1)),
            placeless stored⟩ := by
        refine (Expr.called_eq_ok_iff fun argument hargument => ?_).mpr ⟨stored, ?_, rfl⟩
        · obtain ⟨part, hpart, rfl⟩ := List.mem_map.mp hargument
          exact (hparts part hpart).location_eq
        · rwa [List.map_map]
      simp only [Term.parenthesized, List.cons_append, List.append_assoc, List.length_cons,
        List.length_append, List.length_nil, List.nil_append] at hn hbound ⊢
      rw [primary, run_bind next_facing]
      dsimp only
      rw [run_bind peek_facing, if_pos List.head?_cons, Parser.call,
        run_bind (resolve_facing hmeaning), htype]
      dsimp only
      rw [run_bind expect_facing]
      cases arguments with
      | nil =>
          obtain rfl : parts = [] := List.map_eq_nil_iff.mp hterms.symm
          rw [List.map_nil, Term.commaSeparated_nil, List.nil_append, run_bind optional_taken,
            if_pos rfl, pure_bind, run_bind scope_facing, run_bind last_facing]
          exact built_facing hcalled
      | cons argument others =>
          have hhead : (Term.commaSeparated ((argument :: others).map (·.2)) ++
              .mark .closeParen :: rest).head? ≠ some (.mark .closeParen) := by
            have hfirst := hspelling argument List.mem_cons_self
            rw [List.map_cons, Term.head?_commaSeparated (List.length_pos_iff.mp hfirst.length_pos)]
            simpa using hfirst.head?_ne rfl []
          obtain ⟨n, rfl⟩ : ∃ less, n = less + 1 := ⟨n - 1, by omega⟩
          have hlist : (Term.commaSeparated ((argument :: others).map (·.2)) ++
              .mark .closeParen :: rest).length ≤ bound := by
            rw [List.length_append, List.length_cons]
            omega
          have hseparated := separated (n := n) (by simp) hspelling h hterms.symm hparts bound
            warnings (by omega) (by omega) hlist
          rw [run_bind (optional_left hhead), if_neg Bool.false_ne_true, run_bind bound_facing,
            run_bind hseparated, run_bind expect_facing, pure_bind, run_bind scope_facing,
            run_bind last_facing, ← List.append_assoc]
          exact built_facing hcalled

theorem parenthesized (hspelling : t.Spelling loosestLevel tokens)
    (h : Accepts bound given loosestLevel t tokens) :
    Accepts bound given 0 t (Term.parenthesized tokens) := by
  refine ofPrimary fun {e more} he {n rest warnings} hn hbound _ => ?_
  have hlength := hspelling.length_pos
  simp only [Term.parenthesized, List.cons_append, List.append_assoc, List.length_cons,
    List.length_append, List.length_nil, List.nil_append] at hn hbound ⊢
  obtain ⟨n, rfl⟩ : ∃ less, n = less + 1 := ⟨n - 1, by omega⟩
  have hinner := h.whole rfl he n (.mark .closeParen :: rest) warnings (by omega)
    (by rw [List.length_append, List.length_cons]; omega)
    (.of_eq rfl (Token.not_continues (.inl rfl) _))
  rw [primary, run_bind next_facing]
  dsimp only
  rw [run_bind hinner, run_bind expect_facing]
  rfl

/-! ### Operators before and after operands -/

theorem trailing (step : Step) (h : Accepts bound given trailingLevel t tokens) :
    Accepts bound given trailingLevel (.trailing step t) (tokens ++ [.mark step.mark]) where
  rounds _ e more he n count rest warnings result hn hcount hbound hrest hresult := by
    cases he with
    | @trailing _ place _ _ hplace hscalar ht =>
        simp only [List.length_append, List.length_cons, List.length_nil] at hn hcount hbound
        rw [List.append_assoc]
        refine h.rounds (by decide) ht (by omega) (by omega)
          (by simp only [List.length_append, List.length_cons, List.length_nil]; omega)
          (.of_eq rfl step.not_continues) fun fuel hfuel => ?_
        simp only [List.cons_append, List.nil_append, List.length_cons] at hfuel ⊢
        obtain ⟨fuel, rfl⟩ : ∃ less, fuel = less + 1 := ⟨fuel - 1, by omega⟩
        have hstep : Expr.steppedAfter given.scope nowhere step.op step.back place =
            .ok ⟨_, placeless []⟩ :=
          (Expr.steppedAfter_eq_ok_iff ht.not_constant).mpr ⟨hplace, hscalar, rfl⟩
        show trailingSteps nowhere (fuel + 1) place (facing bound given (warnings ++ more) _) = result
        rw [trailingSteps, run_bind peek_facing, List.head?_cons,
          trailingStep?_step.mpr ⟨step, rfl, rfl, rfl⟩]
        dsimp only
        rw [run_bind next_facing, run_bind scope_facing, run_bind last_facing, Location.span_nowhere,
          run_bind (built_facing hstep), List.append_nil]
        exact hresult fuel (by omega)
  whole hlevel := by cases hlevel

/-- What an operator before an operand makes of it. -/
theorem applyLeading_facing (bound : Nat) {op : UnaryOp} {e : Expr} {more : List Conversion}
    (he : (Term.leading op t).Elaborates given.meaning given.scope e more) :
    ∃ inner, t.Elaborates given.meaning given.scope inner more ∧ ∀ warnings rest,
      applyLeading op nowhere inner (facing bound given warnings rest) =
        .ok (e, facing bound given warnings rest) := by
  have hbuilt : ∀ {rule : Checked (Noted Expr)}, rule = .ok ⟨e, placeless []⟩ →
      ∀ warnings rest, Parser.built rule (facing bound given warnings rest) =
        .ok (e, facing bound given warnings rest) := fun hrule warnings rest =>
    (built_facing hrule).trans (by rw [List.append_nil])
  cases he with
  | @stepping _ place _ step hplace hscalar ht =>
      refine ⟨place, ht, fun warnings rest => ?_⟩
      rw [applyLeading, run_bind scope_facing, run_bind last_facing]
      have hstep : Expr.stepped given.scope nowhere step.op place = .ok ⟨_, placeless []⟩ :=
        (Expr.stepped_eq_ok_iff ht.not_constant).mpr ⟨hplace, hscalar, rfl⟩
      cases step <;> exact hbuilt hstep warnings rest
  | @addressOf _ place _ hplace ht =>
      refine ⟨place, ht, fun warnings rest => ?_⟩
      rw [applyLeading, run_bind scope_facing, run_bind last_facing]
      exact hbuilt (Expr.applied_addressOf_eq_ok_iff.mpr ⟨hplace, rfl⟩) warnings rest
  | @deref _ pointer base _ htype ht =>
      refine ⟨pointer, ht, fun warnings rest => ?_⟩
      rw [applyLeading, run_bind scope_facing, run_bind last_facing]
      exact hbuilt (Expr.applied_deref_eq_ok_iff.mpr ⟨base, htype, rfl⟩) warnings rest
  | @signed _ inner _ _ hop hvalue ht =>
      refine ⟨inner, ht, fun warnings rest => ?_⟩
      rw [applyLeading, run_bind scope_facing, run_bind last_facing]
      have hkeeps : op.keepsType = true := by rcases hop with rfl | rfl <;> rfl
      have happlied : Expr.applied given.scope nowhere op inner = .ok ⟨_, placeless []⟩ :=
        (Expr.applied_keeping_eq_ok_iff hkeeps).mpr ⟨hvalue, rfl⟩
      rcases hop with rfl | rfl <;> exact hbuilt happlied warnings rest

theorem leading (op : UnaryOp) (h : Accepts bound given leadingLevel t tokens) :
    Accepts bound given leadingLevel (.leading op t) (.mark op.mark :: tokens) where
  rounds _ e more he n count rest warnings result hn hcount hbound hrest hresult := by
    obtain ⟨inner, ht, happly⟩ := applyLeading_facing bound he
    rw [List.length_cons] at hn hcount
    rw [List.cons_append, List.length_cons] at hbound
    obtain ⟨count, rfl⟩ : ∃ less, count = less + 1 := ⟨count - 1, by omega⟩
    have hinner := h.alone (by decide) ht n count rest warnings (by omega)
      (by omega) (by omega) hrest.ofTrailing
    show Parser.leading (expressionWithin n) (count + 1) (facing bound given warnings _) = result
    rw [List.cons_append, Parser.leading, run_bind peekLocation_facing, run_bind peek_facing,
      List.head?_cons, operator?_leading.mpr rfl]
    dsimp only
    rw [run_bind next_facing]
    refine (run_bind hinner).trans ?_
    rw [happly]
    exact hresult rest.length (Nat.le_refl _)
  whole hlevel := by cases hlevel

/-! ### Operators between operands -/

theorem binary {left right : Term} {before after : List Token} {k : Nat} (op : BinaryOp)
    (hlevel : op.level = k + 3) (hspelling : left.Spelling (k + 3) before)
    (hleft : Accepts bound given (k + 3) left before)
    (hright : Accepts bound given (k + 2) right after) :
    Accepts bound given (k + 3) (.binary op left right) (before ++ .mark op.mark :: after) where
  rounds hle e more he n count rest warnings result hn hcount hbound hrest hresult := by
    cases he with
    | @binary _ _ l r type warning first second _ hcommon hl hr =>
        have hlength := hspelling.length_pos
        simp only [List.length_append, List.length_cons] at hn hcount hbound
        rw [List.append_assoc, List.cons_append]
        refine hleft.rounds hle hl (by omega) (by omega)
          (by simp only [List.length_append, List.length_cons]; omega)
          (.of_eq rfl (BinaryOp.not_continues (by omega))) fun fuel hfuel => ?_
        rw [List.length_cons] at hfuel
        obtain ⟨fuel, rfl⟩ : ∃ less, fuel = less + 1 := ⟨fuel - 1, by omega⟩
        -- The operand on the right is read up to the tighter level, so the next operator of this
        -- level is left to the rounds that follow.
        have hoperand := hright.alone (Nat.le_of_succ_le hle) hr n count rest (warnings ++ first)
          (by omega) (by omega) (by rw [List.length_append]; omega) hrest
        have hcombined : Expr.combined given.scope nowhere op l r =
            .ok ⟨_, placeless warning.toList⟩ :=
          Expr.combined_eq_ok_iff.mpr ⟨type, warning, hcommon, rfl⟩
        show operatorTail (upTo (expressionWithin n) count (k + 2)) (operatorLevels.getD k []) nowhere
          (fuel + 1) l (facing bound given (warnings ++ first) _) = result
        rw [operatorTail, run_bind peek_facing, List.head?_cons,
          operator?_binary.mpr ⟨rfl, hlevel⟩]
        dsimp only
        rw [run_bind next_facing, run_bind hoperand, run_bind scope_facing, run_bind last_facing,
          Location.span_nowhere, run_bind (built_facing hcombined)]
        have hrounds := hresult fuel (by rw [List.length_append] at hfuel; omega)
        rwa [← List.append_assoc, ← List.append_assoc] at hrounds
  whole hlevel' := by
    have := op.level_bounds.2
    simp only [binaryLevel, loosestLevel] at *
    omega

theorem assign {target value : Term} {before after : List Token}
    (hspelling : target.Spelling binaryLevel before) (hspelling' : value.Spelling loosestLevel after)
    (htarget : Accepts bound given binaryLevel target before)
    (hvalue : Accepts bound given loosestLevel value after) :
    Accepts bound given loosestLevel (.assign target value)
      (before ++ .mark .assign :: after) where
  rounds hle := absurd hle (by decide)
  whole _ e more he n rest warnings hn hbound hrest := by
    cases he with
    | @assign _ _ place stored warning first second hplace hassign ht hv =>
        have hlength := hspelling.length_pos
        have hlength' := hspelling'.length_pos
        simp only [List.length_append, List.length_cons] at hn hbound
        obtain ⟨n, rfl⟩ : ∃ less, n = less + 1 := ⟨n - 1, by omega⟩
        have hleft := htarget.alone (Nat.le_refl _) ht (n + 1) (n + 2)
          (.mark .assign :: (after ++ rest)) warnings (by omega) (by omega)
          (by simp only [List.length_append, List.length_cons]; omega)
          (.of_eq rfl Token.assign_not_continues)
        -- The value is a whole expression again, one level of nesting further in.
        have hright := hvalue.whole rfl hv n rest (warnings ++ first) (by omega)
          (by rw [List.length_append]; omega) hrest
        have hassigned : Expr.assigned given.scope nowhere place stored =
            .ok ⟨_, placeless warning.toList⟩ :=
          Expr.assigned_eq_ok_iff.mpr ⟨hplace, warning, hassign, rfl⟩
        rw [List.append_assoc, List.cons_append, expressionWithin, run_bind peekLocation_facing,
          operators_eq_upTo, run_bind hleft, run_bind optional_taken, if_pos rfl, run_bind hright,
          run_bind scope_facing, run_bind last_facing]
        refine (built_facing hassigned).trans ?_
        rw [← List.append_assoc, ← List.append_assoc]

/-- What is read up to a level is read up to the next one, with the rounds of that one after it. -/
theorem looser {tighter : Nat} (hspelling : t.Spelling tighter tokens)
    (h : Accepts bound given tighter t tokens) : Accepts bound given (tighter + 1) t tokens where
  rounds hle e more he n count rest warnings result hn hcount hbound hrest hresult := by
    have halone := h.alone (Nat.le_of_succ_le hle) he n count rest warnings hn hcount hbound hrest
    have hfuel : rest.length ≤ bound := by
      rw [List.length_append] at hbound
      omega
    -- The tightest two levels have loops of their own, the others share the one of `operatorTail`.
    match tighter with
    | 0 =>
        show Parser.trailing (expressionWithin n) (facing bound given warnings _) = result
        rw [Parser.trailing, run_bind peekLocation_facing]
        refine (run_bind halone).trans ?_
        rw [run_bind bound_facing]
        exact hresult bound hfuel
    | 1 =>
        obtain ⟨count, rfl⟩ : ∃ less, count = less + 1 :=
          ⟨count - 1, by have := hspelling.length_pos; omega⟩
        show Parser.leading (expressionWithin n) (count + 1) (facing bound given warnings _) = result
        rw [Parser.leading, run_bind peekLocation_facing, run_bind peek_facing,
          hspelling.no_leading (Nat.le_refl _)]
        exact halone.trans (hresult bound hfuel)
    | k + 2 =>
        show Parser.operatorLevel _ _ (facing bound given warnings _) = result
        rw [Parser.operatorLevel, run_bind peekLocation_facing, run_bind halone,
          run_bind bound_facing]
        exact hresult bound hfuel
  whole hlevel e more he n rest warnings hn hbound hrest := by
    obtain rfl : tighter = binaryLevel := Nat.succ.inj hlevel
    have halone := h.alone (Nat.le_refl _) he n (n + 1) rest warnings hn hn hbound
      (hrest.tighter (by decide))
    rw [expressionWithin, run_bind peekLocation_facing, operators_eq_upTo, run_bind halone,
      run_bind (optional_left hrest.not_assign), if_neg Bool.false_ne_true]
    rfl

end Accepts

end Parser

/-- The tokens that spell a term are read as what it elaborates to. -/
theorem Term.Spelling.accepts {level : Nat} {t : Term} {tokens : List Token}
    (h : t.Spelling level tokens) (bound : Nat) (given : Parser.Setting) :
    Parser.Accepts bound given level t tokens := by
  induction h with
  | integer value => exact .integer value
  | character byte => exact .character byte
  | string bytes => exact .string bytes
  | name text => exact .name text
  | call harguments ih => exact .call harguments ih
  | parenthesized h ih => exact .parenthesized h ih
  | trailing step _ ih => exact .trailing step ih
  | leading op _ ih => exact .leading op ih
  | @binary left right before after tighter op hlevel hleft _ ihleft ihright =>
      obtain ⟨k, rfl⟩ : ∃ k, tighter = k + 2 :=
        ⟨tighter - 2, by have := op.level_bounds.1; simp only [leadingLevel] at this; omega⟩
      rw [hlevel] at hleft ihleft ⊢
      exact .binary op hlevel hleft ihleft ihright
  | assign htarget hvalue ihtarget ihvalue => exact .assign htarget hvalue ihtarget ihvalue
  | looser _ h ih => exact .looser h ih

namespace Parser

/-- The tokens that spell a term, before tokens that do not go on with it, are read as the expression
that it elaborates to. -/
theorem expression_facing {bound : Nat} {given : Setting} {t : Term} {tokens rest : List Token}
    {e : Expr} {more : List Conversion} (h : t.Spelling loosestLevel tokens)
    (he : t.Elaborates given.meaning given.scope e more) (warnings : List Conversion)
    (hbound : (tokens ++ rest).length ≤ bound) (hrest : Stops loosestLevel rest) :
    expression (facing bound given warnings (tokens ++ rest)) =
      .ok (e, facing bound given (warnings ++ more) rest) := by
  have hlength := h.length_pos
  rw [List.length_append] at hbound
  obtain ⟨n, rfl⟩ : ∃ less, bound = less + 1 := ⟨bound - 1, by omega⟩
  rw [expression, run_bind bound_facing]
  exact (h.accepts (n + 1) given).whole rfl he n rest warnings (by omega)
    (by rw [List.length_append]; omega) hrest

end Parser

end AccumulatorC
