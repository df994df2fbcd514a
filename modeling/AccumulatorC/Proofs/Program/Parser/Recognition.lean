import AccumulatorC.Proofs.Program.Parser.Completeness

/-!
# What is read is spelled

Whatever is read as an expression is spelled by the tokens that were taken for it: there is a term
that they spell by the grammar and that elaborates to the expression.
-/

namespace AccumulatorC.Parser

variable {α β : Type}

/-- In front of tokens, the tokens that the parser takes, those that it leaves, the warnings that it
adds and the setting after it meet the postcondition. -/
def ReadsFrom (coming : List Token) (given : Setting) (parser : Parser α)
    (post : α → List Token → List Token → List Conversion → Setting → Prop) : Prop :=
  ∀ bound warnings, Ensures parser (facing bound given warnings coming) fun value final =>
    ∃ taken rest more after, coming = taken ++ rest ∧
      final = facing bound after (warnings ++ more) rest ∧ post value taken rest more after

/-- In front of all tokens, the parser keeps the setting, and what it takes and adds meets the
postcondition. -/
def Recognizes (given : Setting) (parser : Parser α)
    (post : α → List Token → List Conversion → Prop) : Prop :=
  ∀ coming, ReadsFrom coming given parser fun value taken _ more after =>
    after = given ∧ post value taken more

namespace ReadsFrom

variable {coming : List Token} {given : Setting} {parser : Parser α}
  {post other : α → List Token → List Token → List Conversion → Setting → Prop}

theorem mono (h : ReadsFrom coming given parser post)
    (himp : ∀ value taken rest more after, coming = taken ++ rest →
      post value taken rest more after → other value taken rest more after) :
    ReadsFrom coming given parser other := fun bound warnings =>
  (h bound warnings).mono fun _ _ ⟨taken, rest, more, after, hcoming, hfinal, hpost⟩ =>
    ⟨taken, rest, more, after, hcoming, hfinal, himp _ _ _ _ _ hcoming hpost⟩

theorem pure {value : α} (h : post value [] coming [] given) :
    ReadsFrom coming given (Pure.pure value) post := fun bound warnings =>
  ensures_pure.mpr ⟨[], coming, [], given, rfl, by rw [List.append_nil], h⟩

theorem fail {cause : ParseError} : ReadsFrom coming given (Parser.fail cause : Parser α) post :=
  fun _ _ => ensures_fail

theorem failAt {cause : ParseError} {location : Location} :
    ReadsFrom coming given (Parser.failAt cause location : Parser α) post :=
  fun _ _ => ensures_failAt

theorem bind {second : α → Parser β}
    {last : β → List Token → List Token → List Conversion → Setting → Prop}
    (h : ReadsFrom coming given parser post)
    (hsecond : ∀ value taken rest more after, coming = taken ++ rest →
      post value taken rest more after →
      ReadsFrom rest after (second value) fun result taken' rest' more' final =>
        last result (taken ++ taken') rest' (more ++ more') final) :
    ReadsFrom coming given (parser >>= second) last := by
  intro bound warnings
  refine ensures_bind.mpr ((h bound warnings).mono ?_)
  rintro value _ ⟨taken, rest, more, after, hcoming, rfl, hpost⟩
  refine (hsecond value taken rest more after hcoming hpost bound (warnings ++ more)).mono ?_
  rintro result _ ⟨taken', rest', more', final, rfl, rfl, hlast⟩
  exact ⟨taken ++ taken', rest', more ++ more', final, by rw [hcoming, List.append_assoc],
    by rw [List.append_assoc], hlast⟩

theorem ite {c : Prop} [Decidable c] {yes no : Parser α} (hyes : c → ReadsFrom coming given yes post)
    (hno : ¬ c → ReadsFrom coming given no post) :
    ReadsFrom coming given (if c then yes else no) post := by
  split
  next hc => exact hyes hc
  next hc => exact hno hc

/-- What succeeds without a change comes before. -/
theorem after {first : Parser α} {second : α → Parser β} {value : α}
    {last : β → List Token → List Token → List Conversion → Setting → Prop}
    (hfirst : ∀ bound warnings, first (facing bound given warnings coming) =
      .ok (value, facing bound given warnings coming))
    (h : ReadsFrom coming given (second value) last) :
    ReadsFrom coming given (first >>= second) last := fun bound warnings result final hrun =>
  h bound warnings result final ((run_bind (hfirst bound warnings)).symm.trans hrun)

theorem peek {next : Option Token → Parser α} (h : ReadsFrom coming given (next coming.head?) post) :
    ReadsFrom coming given (Parser.peek >>= next) post := after (fun _ _ => peek_facing) h

theorem peekLocation {next : Location → Parser α} (h : ReadsFrom coming given (next nowhere) post) :
    ReadsFrom coming given (Parser.peekLocation >>= next) post :=
  after (fun _ _ => peekLocation_facing) h

theorem last {next : Location → Parser α} (h : ReadsFrom coming given (next nowhere) post) :
    ReadsFrom coming given (Parser.last >>= next) post := after (fun _ _ => last_facing) h

theorem scope {next : ScopeId → Parser α} (h : ReadsFrom coming given (next given.scope) post) :
    ReadsFrom coming given (Parser.scope >>= next) post := after (fun _ _ => scope_facing) h

theorem bound {next : Nat → Parser α} (h : ∀ count, ReadsFrom coming given (next count) post) :
    ReadsFrom coming given (Parser.bound >>= next) post := fun count warnings result final hrun =>
  h count count warnings result final ((run_bind bound_facing).symm.trans hrun)

/-- The token to come is taken. -/
theorem next {second : Located Token → Parser α}
    (h : ∀ token rest, coming = token :: rest →
      ReadsFrom rest given (second ⟨token, nowhere⟩) fun value taken rest' more after =>
        post value (token :: taken) rest' more after) :
    ReadsFrom coming given (Parser.next >>= second) post := by
  intro bound warnings
  cases coming with
  | nil => exact ensures_bind.mpr (fun _ _ hrun => by cases hrun)
  | cons token rest =>
      intro result final hrun
      obtain ⟨taken, rest', more, after, hrest, hfinal, hpost⟩ :=
        h token rest rfl bound warnings result final ((run_bind next_facing).symm.trans hrun)
      exact ⟨token :: taken, rest', more, after, by rw [hrest]; rfl, hfinal, hpost⟩

/-- A token that was seen to come is taken. -/
theorem nextIs {token : Token} {second : Located Token → Parser α}
    (hhead : coming.head? = some token)
    (h : ∀ rest, coming = token :: rest →
      ReadsFrom rest given (second ⟨token, nowhere⟩) fun value taken rest' more after =>
        post value (token :: taken) rest' more after) :
    ReadsFrom coming given (Parser.next >>= second) post :=
  next fun found rest hcoming => by
    rw [hcoming, List.head?_cons, Option.some.injEq] at hhead
    subst hhead
    exact h rest hcoming

theorem optional {token : Token} {second : Bool → Parser α}
    (htaken : ∀ rest, coming = token :: rest →
      ReadsFrom rest given (second true) fun value taken rest' more after =>
        post value (token :: taken) rest' more after)
    (hleft : coming.head? ≠ some token → ReadsFrom coming given (second false) post) :
    ReadsFrom coming given (Parser.optional token >>= second) post := by
  by_cases hhead : coming.head? = some token
  · obtain ⟨rest, rfl⟩ := List.head?_eq_some_iff.mp hhead
    intro bound warnings result final hrun
    obtain ⟨taken, rest', more, after, hrest, hfinal, hpost⟩ :=
      htaken rest rfl bound warnings result final ((run_bind optional_taken).symm.trans hrun)
    exact ⟨token :: taken, rest', more, after, by rw [hrest]; rfl, hfinal, hpost⟩
  · exact after (fun _ _ => optional_left hhead) (hleft hhead)

theorem expect {token : Token} {second : Unit → Parser α}
    (h : ∀ rest, coming = token :: rest →
      ReadsFrom rest given (second ()) fun value taken rest' more after =>
        post value (token :: taken) rest' more after) :
    ReadsFrom coming given (Parser.expect token >>= second) post := by
  intro bound warnings
  by_cases hhead : coming.head? = some token
  · obtain ⟨rest, rfl⟩ := List.head?_eq_some_iff.mp hhead
    intro result final hrun
    obtain ⟨taken, rest', more, after, hrest, hfinal, hpost⟩ :=
      h rest rfl bound warnings result final ((run_bind expect_facing).symm.trans hrun)
    exact ⟨token :: taken, rest', more, after, by rw [hrest]; rfl, hfinal, hpost⟩
  · refine ensures_bind.mpr (ensures_expect fun middle hcoming _ => absurd ?_ hhead)
    rw [coming_facing] at hcoming
    rw [hcoming, List.head?_cons]

end ReadsFrom

namespace Recognizes

variable {given : Setting} {parser : Parser α} {post other : α → List Token → List Conversion → Prop}

theorem mono (h : Recognizes given parser post)
    (himp : ∀ value taken more, post value taken more → other value taken more) :
    Recognizes given parser other := fun coming =>
  (h coming).mono fun _ _ _ _ _ _ ⟨hafter, hpost⟩ => ⟨hafter, himp _ _ _ hpost⟩

theorem pure {value : α} (h : post value [] []) : Recognizes given (Pure.pure value) post :=
  fun _ => .pure ⟨rfl, h⟩

theorem bind {second : α → Parser β} {last : β → List Token → List Conversion → Prop}
    (h : Recognizes given parser post)
    (hsecond : ∀ value taken more, post value taken more →
      Recognizes given (second value) fun result taken' more' =>
        last result (taken ++ taken') (more ++ more')) :
    Recognizes given (parser >>= second) last := fun coming =>
  (h coming).bind fun value taken rest more _ _ ⟨hafter, hpost⟩ =>
    hafter ▸ hsecond value taken more hpost rest

theorem ite {c : Prop} [Decidable c] {yes no : Parser α} (hyes : c → Recognizes given yes post)
    (hno : ¬ c → Recognizes given no post) : Recognizes given (if c then yes else no) post :=
  fun coming => .ite (fun hc => hyes hc coming) fun hc => hno hc coming

theorem peekLocation {next : Location → Parser α} (h : Recognizes given (next nowhere) post) :
    Recognizes given (Parser.peekLocation >>= next) post := fun coming => .peekLocation (h coming)

theorem last {next : Location → Parser α} (h : Recognizes given (next nowhere) post) :
    Recognizes given (Parser.last >>= next) post := fun coming => .last (h coming)

theorem scope {next : ScopeId → Parser α} (h : Recognizes given (next given.scope) post) :
    Recognizes given (Parser.scope >>= next) post := fun coming => .scope (h coming)

theorem bound {next : Nat → Parser α} (h : ∀ count, Recognizes given (next count) post) :
    Recognizes given (Parser.bound >>= next) post := fun coming => .bound fun count => h count coming

theorem expect {token : Token} {second : Unit → Parser α}
    (h : Recognizes given (second ()) fun value taken more => post value (token :: taken) more) :
    Recognizes given (Parser.expect token >>= second) post := fun _ => .expect fun rest _ => h rest

theorem optional {token : Token} {second : Bool → Parser α}
    (htaken : Recognizes given (second true) fun value taken more =>
      post value (token :: taken) more)
    (hleft : Recognizes given (second false) post) :
    Recognizes given (Parser.optional token >>= second) post := fun coming =>
  .optional (fun rest _ => htaken rest) fun _ => hleft coming

theorem fail {cause : ParseError} : Recognizes given (Parser.fail cause : Parser α) post :=
  fun _ => .fail

theorem failAt {cause : ParseError} {location : Location} :
    Recognizes given (Parser.failAt cause location : Parser α) post := fun _ => .failAt

theorem warn (warnings : List Conversion) :
    Recognizes given (Parser.warn (placeless warnings)) fun _ taken more =>
      taken = [] ∧ more = warnings := by
  intro coming bound before value final hrun
  rw [warn_facing] at hrun
  cases hrun
  exact ⟨[], coming, warnings, given, rfl, rfl, rfl, rfl, rfl⟩

theorem checked (result : Checked α) :
    Recognizes given (Parser.checked result) fun value taken more =>
      result = .ok value ∧ taken = [] ∧ more = [] := by
  cases result with
  | ok value => exact pure ⟨rfl, rfl, rfl⟩
  | error located => exact failAt

/-- What is built by a rule meets what the rule promises. -/
theorem built {rule : Checked (Noted Expr)} {post : Expr → List Token → List Conversion → Prop}
    (h : ∀ noted, rule = .ok noted → ∃ more, noted.warnings = placeless more ∧
      post noted.value [] more) : Recognizes given (Parser.built rule) post := by
  refine (checked rule).bind ?_
  rintro noted _ _ ⟨hnoted, rfl, rfl⟩
  obtain ⟨more, hwarnings, hpost⟩ := h noted hnoted
  rw [hwarnings]
  refine (warn more).bind ?_
  rintro _ _ _ ⟨rfl, rfl⟩
  exact pure (by simpa using hpost)

theorem resolve (name : String) :
    Recognizes given (Parser.resolve name nowhere) fun symbol taken more =>
      given.meaning name = some symbol ∧ taken = [] ∧ more = [] := by
  intro coming bound warnings
  simp only [Parser.resolve, ensures_bind, ensures_get]
  split
  next symbol hfound =>
    refine ensures_pure.mpr ⟨[], coming, [], given, rfl, by rw [List.append_nil], rfl, ?_, rfl, rfl⟩
    have hlookup : given.scopes.lookup given.scope name = .ok symbol := hfound
    rw [Setting.meaning, hlookup]
    rfl
  next => exact ensures_throw

/-! ## Expressions -/

/-- Tokens that spell a term up to a level, and an expression that it elaborates to with
warnings. -/
def Spelled (given : Setting) (level : Nat) (e : Expr) (taken : List Token)
    (more : List Conversion) : Prop :=
  ∃ t : Term, t.Spelling level taken ∧ t.Elaborates given.meaning given.scope e more

section Levels

variable {nested : Parser Expr} (hnested : Recognizes given nested (Spelled given loosestLevel))
include hnested

theorem separated (count : Nat) :
    Recognizes given (Parser.separated nested count) fun arguments taken more =>
      ∃ (parts : List (Term × List Token)) (trees : List (Term × Expr × List Conversion)),
        (∀ part ∈ parts, part.1.Spelling loosestLevel part.2) ∧
        (∀ tree ∈ trees, tree.1.Elaborates given.meaning given.scope tree.2.1 tree.2.2) ∧
        trees.map (·.1) = parts.map (·.1) ∧ parts ≠ [] ∧
        taken = Term.commaSeparated (parts.map (·.2)) ∧
        arguments = trees.map (·.2.1) ∧ more = trees.flatMap (·.2.2) := by
  induction count with
  | zero => exact fail
  | succ count ih =>
      refine hnested.bind ?_
      rintro e taken more ⟨t, hspelling, he⟩
      refine optional ?_ (pure ?_)
      · refine ih.bind ?_
        rintro _ _ _ ⟨parts, trees, hparts, htrees, hsame, hsome, rfl, rfl, rfl⟩
        refine pure ⟨(t, taken) :: parts, (t, e, more) :: trees,
          List.forall_mem_cons.mpr ⟨hspelling, hparts⟩, List.forall_mem_cons.mpr ⟨he, htrees⟩,
          by rw [List.map_cons, List.map_cons, hsame], by simp, ?_, rfl, by simp⟩
        obtain ⟨second, others, rfl⟩ := List.exists_cons_of_ne_nil hsome
        simp [Term.commaSeparated_cons]
      · exact ⟨[(t, taken)], [(t, e, more)], List.forall_mem_singleton.mpr hspelling,
          List.forall_mem_singleton.mpr he, rfl, by simp, by simp [Term.commaSeparated_singleton], rfl,
          by simp⟩

omit hnested in
/-- What is built of a function and its arguments is the call. -/
theorem called {name : String} {symbol : Symbol} {result : Ty} {parameters : List Ty}
    (hmeaning : given.meaning name = some symbol) (htype : symbol.type = .function result parameters)
    {trees : List (Term × Expr × List Conversion)}
    (htrees : ∀ tree ∈ trees, tree.1.Elaborates given.meaning given.scope tree.2.1 tree.2.2) :
    Recognizes given (do
      Parser.built (Expr.called (← Parser.scope) (.span nowhere (← Parser.last)) symbol result parameters
        (trees.map (·.2.1))))
      fun e taken more => taken = [] ∧ (Term.call name (trees.map (·.1))).Elaborates given.meaning
        given.scope e (trees.flatMap (·.2.2) ++ more) := by
  refine scope (last (built fun noted hnoted => ?_))
  have hnowhere : ∀ argument ∈ trees.map (·.2.1), argument.location = nowhere := by
    intro argument hargument
    obtain ⟨tree, htree, rfl⟩ := List.mem_map.mp hargument
    exact (htrees tree htree).location_eq
  obtain ⟨warnings, hstores, rfl⟩ := (Expr.called_eq_ok_iff hnowhere).mp hnoted
  rw [List.map_map] at hstores
  exact ⟨warnings, rfl, rfl, .call hmeaning htype htrees hstores⟩

theorem call (name : String) :
    Recognizes given (Parser.call nested name nowhere) fun e taken more =>
      Spelled given 0 e (.identifier name :: taken) more := by
  unfold Parser.call
  refine (resolve name).bind ?_
  rintro symbol _ _ ⟨hmeaning, rfl, rfl⟩
  split
  next result parameters htype =>
      refine expect (optional ?_ ?_)
      · refine ite (fun _ => ?_) fun hfalse => absurd rfl hfalse
        rw [pure_bind]
        refine (called hmeaning htype (List.forall_mem_nil _)).mono ?_
        rintro e _ more ⟨rfl, he⟩
        exact ⟨_, .call (List.forall_mem_nil _), he⟩
      · refine ite (fun htrue => absurd htrue Bool.false_ne_true) fun _ => ?_
        refine bound fun count => (separated hnested count).bind ?_
        rintro _ _ _ ⟨parts, trees, hparts, htrees, hsame, -, rfl, rfl, rfl⟩
        refine expect ?_
        rw [pure_bind]
        refine (called hmeaning htype htrees).mono ?_
        rintro e _ more ⟨rfl, he⟩
        rw [hsame] at he
        exact ⟨_, .call hparts, he⟩
  next => exact failAt

omit hnested in
theorem use (name : String) :
    Recognizes given (Parser.use name nowhere) fun e taken more =>
      Spelled given 0 e (.identifier name :: taken) more := by
  refine (resolve name).bind ?_
  rintro symbol _ _ ⟨hmeaning, rfl, rfl⟩
  refine ite (fun _ => failAt) fun hfunction => scope (pure ?_)
  exact ⟨.name name, .name name, .name hmeaning (Bool.not_eq_true _ ▸ hfunction)⟩

omit hnested in
theorem literal {make : Note → Expr} {type : Ty} {t : Term} {token : Token}
    (hspelling : t.Spelling 0 [token])
    (he : t.Elaborates given.meaning given.scope (make ⟨type, given.scope, true, nowhere⟩) []) :
    Recognizes given (Parser.literal make type nowhere) fun e taken more =>
      Spelled given 0 e (token :: taken) more :=
  scope (pure ⟨t, hspelling, he⟩)

theorem primary : Recognizes given (Parser.primary nested) (Spelled given 0) := by
  intro coming
  refine .next fun token rest hcoming => ?_
  cases token with
  | integer value => exact literal (.integer value) (.integer value) rest
  | character byte => exact literal (.character byte) (.character byte) rest
  | string bytes => exact literal (.string bytes) (.string bytes) rest
  | identifier name =>
      refine .peek (.ite (fun _ => ?_) fun _ => ?_)
      · exact call hnested name rest
      · exact use name rest
  | mark mark =>
      cases mark with
      | openParen =>
          refine (hnested.bind ?_) rest
          rintro e taken more ⟨t, hspelling, he⟩
          refine expect (pure ?_)
          rw [List.append_nil]
          exact ⟨t, .parenthesized hspelling, he⟩
      | _ => exact .fail
  | _ => exact .fail

omit hnested in
theorem trailingSteps (count : Nat) {e : Expr} {taken : List Token} {more : List Conversion}
    (he : Spelled given trailingLevel e taken more) :
    Recognizes given (Parser.trailingSteps nowhere count e) fun whole taken' more' =>
      Spelled given trailingLevel whole (taken ++ taken') (more ++ more') := by
  -- On the rounds: each one makes the expression so far the operand of a step.
  induction count generalizing e taken more with
  | zero => exact pure (by simpa using he)
  | succ count ih =>
      intro coming
      refine .peek ?_
      split
      next op back hop =>
          obtain ⟨step, hhead, rfl, rfl⟩ := trailingStep?_step.mp hop
          obtain ⟨t, hspelling, ht⟩ := he
          have hstep : Recognizes given (Parser.built (Expr.steppedAfter given.scope nowhere step.op
              step.back e)) fun whole taken' more' =>
              Spelled given trailingLevel whole (taken ++ .mark step.mark :: taken')
                (more ++ more') := by
            refine built fun noted hnoted => ?_
            obtain ⟨hplace, hscalar, rfl⟩ := (Expr.steppedAfter_eq_ok_iff ht.not_constant).mp hnoted
            exact ⟨[], rfl, .trailing step t, .trailing step hspelling,
              by simpa using ht.trailing step hplace hscalar⟩
          refine .nextIs hhead fun rest _ => .scope (.last ?_)
          refine (hstep.bind fun whole taken' more' hwhole => ?_) rest
          refine (ih hwhole).mono fun _ _ _ h => ?_
          simpa using h
      next => exact .pure ⟨rfl, by simpa using he⟩

theorem trailing : Recognizes given (Parser.trailing nested) (Spelled given trailingLevel) := by
  refine peekLocation ((primary hnested).bind fun e taken more ⟨t, hspelling, he⟩ => ?_)
  exact bound fun count => trailingSteps count ⟨t, .looser (by decide) hspelling, he⟩

omit hnested in
theorem applyLeading (op : UnaryOp) {e : Expr} {taken : List Token} {more : List Conversion}
    (he : Spelled given leadingLevel e taken more) :
    Recognizes given (Parser.applyLeading op nowhere e) fun whole taken' more' =>
      Spelled given leadingLevel whole (.mark op.mark :: taken ++ taken') (more ++ more') := by
  obtain ⟨t, hspelling, ht⟩ := he
  have hwhole : ∀ {rule : Checked (Noted Expr)},
      (∀ noted, rule = .ok noted → noted.warnings = [] ∧
        (Term.leading op t).Elaborates given.meaning given.scope noted.value more) →
      Recognizes given (Parser.built rule) fun whole taken' more' =>
        Spelled given leadingLevel whole (.mark op.mark :: taken ++ taken') (more ++ more') :=
    fun hrule => built fun noted hnoted => by
      obtain ⟨hwarnings, hnoted⟩ := hrule noted hnoted
      exact ⟨[], hwarnings, .leading op t, by simpa using hspelling.leading op, by simpa using hnoted⟩
  unfold Parser.applyLeading
  refine scope (last ?_)
  have hstepped : ∀ step : Step, op = step.op → ∀ noted,
      Expr.stepped given.scope nowhere op e = .ok noted → noted.warnings = [] ∧
        (Term.leading op t).Elaborates given.meaning given.scope noted.value more := by
    rintro step rfl noted hnoted
    obtain ⟨hplace, hscalar, rfl⟩ := (Expr.stepped_eq_ok_iff ht.not_constant).mp hnoted
    exact ⟨rfl, .stepping step hplace hscalar ht⟩
  have hsigned : op = .plus ∨ op = .negate → ∀ noted,
      Expr.applied given.scope nowhere op e = .ok noted → noted.warnings = [] ∧
        (Term.leading op t).Elaborates given.meaning given.scope noted.value more := by
    intro hop noted hnoted
    have hkeeps : op.keepsType = true := by rcases hop with rfl | rfl <;> rfl
    obtain ⟨hvalue, rfl⟩ := (Expr.applied_keeping_eq_ok_iff hkeeps).mp hnoted
    exact ⟨rfl, .signed hop hvalue ht⟩
  cases op with
  | increment => exact hwhole (hstepped .increment rfl)
  | decrement => exact hwhole (hstepped .decrement rfl)
  | plus => exact hwhole (hsigned (.inl rfl))
  | negate => exact hwhole (hsigned (.inr rfl))
  | addressOf =>
      refine hwhole fun noted hnoted => ?_
      obtain ⟨hplace, rfl⟩ := Expr.applied_addressOf_eq_ok_iff.mp hnoted
      exact ⟨rfl, .addressOf hplace ht⟩
  | deref =>
      refine hwhole fun noted hnoted => ?_
      obtain ⟨base, htype, rfl⟩ := Expr.applied_deref_eq_ok_iff.mp hnoted
      exact ⟨rfl, .deref htype ht⟩

theorem leading (count : Nat) :
    Recognizes given (Parser.leading nested count) (Spelled given leadingLevel) := by
  induction count with
  | zero => exact fail
  | succ count ih =>
      intro coming
      refine .peekLocation (.peek ?_)
      split
      next op hop =>
          refine .nextIs (operator?_leading.mp hop) fun rest _ => ?_
          refine (ih.bind fun e taken more he => ?_) rest
          exact applyLeading op he
      next =>
          refine ((trailing hnested).mono ?_) coming
          exact fun _ _ _ ⟨t, hspelling, he⟩ => ⟨t, .looser (by decide) hspelling, he⟩

omit hnested in
theorem operatorTail {operand : Parser Expr} {k : Nat}
    (hoperand : Recognizes given operand (Spelled given (k + 2))) (count : Nat) {e : Expr}
    {taken : List Token} {more : List Conversion} (he : Spelled given (k + 3) e taken more) :
    Recognizes given (Parser.operatorTail operand (operatorLevels.getD k []) nowhere count e)
      fun whole taken' more' => Spelled given (k + 3) whole (taken ++ taken') (more ++ more') := by
  -- On the rounds: each one makes the expression so far the left operand, so operators of a level
  -- group to the left.
  induction count generalizing e taken more with
  | zero => exact pure (by simpa using he)
  | succ count ih =>
      intro coming
      refine .peek ?_
      split
      next op hop =>
          obtain ⟨hhead, hlevel⟩ := operator?_binary.mp hop
          obtain ⟨left, hleft, hl⟩ := he
          refine .nextIs hhead fun rest _ => ?_
          refine (hoperand.bind fun r after others ⟨right, hright, hr⟩ => ?_) rest
          have hbuilt : Recognizes given (Parser.built (Expr.combined given.scope nowhere op e r))
              fun whole taken' more' => Spelled given (k + 3) whole
                (taken ++ .mark op.mark :: after ++ taken') (more ++ others ++ more') := by
            refine built fun noted hnoted => ?_
            obtain ⟨type, warning, hcommon, rfl⟩ := Expr.combined_eq_ok_iff.mp hnoted
            refine ⟨warning.toList, rfl, .binary op left right, ?_, .binary op hcommon hl hr⟩
            rw [List.append_nil, ← hlevel]
            exact .binary op hlevel (hlevel ▸ hleft) hright
          refine scope (last (hbuilt.bind fun whole taken' more' hwhole => ?_))
          refine (ih hwhole).mono fun _ _ _ h => ?_
          simpa using h
      next => exact .pure ⟨rfl, by simpa using he⟩

theorem upTo (count level : Nat) (hlevel : level ≤ binaryLevel) :
    Recognizes given (Parser.upTo nested count level) (Spelled given level) := by
  match level with
  | 0 => exact primary hnested
  | 1 => exact trailing hnested
  | 2 => exact leading hnested count
  | k + 3 =>
      refine peekLocation ((upTo count (k + 2) (Nat.le_of_succ_le hlevel)).bind ?_)
      rintro e taken more ⟨t, hspelling, he⟩
      refine bound fun count => operatorTail (upTo _ (k + 2) (Nat.le_of_succ_le hlevel)) count ?_
      exact ⟨t, .looser (Nat.lt_succ_of_lt hlevel) hspelling, he⟩

end Levels

theorem expressionWithin (count : Nat) :
    Recognizes given (Parser.expressionWithin count) (Spelled given loosestLevel) := by
  induction count with
  | zero => exact fail
  | succ count ih =>
      refine peekLocation ?_
      rw [operators_eq_upTo]
      refine (upTo ih (count + 1) binaryLevel (Nat.le_refl _)).bind ?_
      rintro t taken more ⟨target, htarget, ht⟩
      refine optional ?_ ?_
      · refine ite (fun _ => ?_) fun hfalse => absurd rfl hfalse
        refine ih.bind ?_
        rintro v after others ⟨value, hvalue, hv⟩
        refine scope (last (built fun noted hnoted => ?_))
        obtain ⟨hplace, warning, hassign, rfl⟩ := Expr.assigned_eq_ok_iff.mp hnoted
        refine ⟨warning.toList, rfl, .assign target value, ?_, ?_⟩
        · rw [List.append_nil]
          exact .assign htarget hvalue
        · rw [← List.append_assoc]
          exact .assign hplace hassign ht hv
      · refine ite (fun htrue => absurd htrue Bool.false_ne_true) fun _ => pure ?_
        rw [List.append_nil, List.append_nil]
        exact ⟨target, .looser (by decide) htarget, ht⟩

/-- Whatever is read as an expression is spelled by the tokens taken for it, and the term that they
spell elaborates to it. -/
theorem expression : Recognizes given Parser.expression (Spelled given loosestLevel) :=
  bound expressionWithin

end Recognizes

end AccumulatorC.Parser
