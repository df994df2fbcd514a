import AccumulatorC.Proofs.Program.Parser.Recognition
import AccumulatorC.Proofs.Program.Parser.Sources
import AccumulatorC.Proofs.Program.Statics

/-!
# What is read is a source

Whatever is read as a statement, a function or a program is spelled by the tokens taken for it, and
the phrase, the routine or the source that they spell elaborates to it.
-/

namespace AccumulatorC.Parser

variable {α β : Type}

/-! ## Names and types -/

namespace Recognizes

variable {given : Setting}

/-- An identifier is read from a token of its name. -/
theorem identifier :
    Recognizes given Parser.identifier fun name taken more =>
      ∃ text, name = ⟨text, nowhere⟩ ∧ taken = [.identifier text] ∧ more = [] := by
  intro coming
  refine .next fun token rest _ => ?_
  cases token with
  | identifier text => exact .pure ⟨rfl, text, rfl, rfl, rfl⟩
  | _ => exact .fail

theorem stars (count : Nat) {type : Ty} {taken : List Token} (h : type.Spelling taken) :
    Recognizes given (Parser.stars count type) fun whole taken' more =>
      whole.Spelling (taken ++ taken') ∧ more = [] := by
  induction count generalizing type taken with
  | zero => exact pure ⟨by rwa [List.append_nil], rfl⟩
  | succ count ih =>
      refine optional (ite (fun _ => ?_) fun hfalse => absurd rfl hfalse)
        (ite (fun htrue => absurd htrue Bool.false_ne_true) fun _ => pure ?_)
      · refine (ih (.pointer h)).mono fun _ _ _ h => ?_
        rwa [List.append_assoc] at h
      · exact ⟨by rwa [List.append_nil], rfl⟩

/-- A type is read from a spelling of it. -/
theorem type :
    Recognizes given Parser.type fun type taken more => type.Spelling taken ∧ more = [] := by
  intro coming
  refine .next fun token rest _ => ?_
  cases token with
  | keyword word =>
      cases word with
      | voidType => exact bound (fun count => stars count .void) rest
      | charType => exact bound (fun count => stars count .char) rest
      | intType => exact bound (fun count => stars count .int) rest
      | _ => exact .fail
  | _ => exact .fail

theorem bindValue (type : Ty) {value : Expr} (hnowhere : value.location = nowhere) :
    Recognizes given (Parser.bindValue type value) fun _ taken more =>
      taken = [] ∧ ∃ warning, type.assign value.type = .ok warning ∧ more = warning.toList := by
  refine (checked _).bind ?_
  rintro _ _ _ ⟨hbound, rfl, rfl⟩
  obtain ⟨warning, hassign, rfl⟩ := (Checked.bindValue_eq_ok hnowhere).mp hbound
  refine (warn warning.toList).mono ?_
  rintro _ _ _ ⟨rfl, rfl⟩
  exact ⟨rfl, warning, hassign, rfl⟩

theorem requireVariable (type : Ty) (name : Located String) :
    Recognizes given (Parser.requireVariable type name) fun _ taken more =>
      type.isVoid = false ∧ taken = [] ∧ more = [] :=
  ite (fun _ => failAt) fun hvoid => pure ⟨Bool.not_eq_true _ ▸ hvoid, rfl, rfl⟩

theorem requireValue (value : Expr) :
    Recognizes given (Parser.checked (Checked.requireValue value)) fun _ taken more =>
      value.type.isVoid = false ∧ taken = [] ∧ more = [] :=
  (checked _).mono fun _ _ _ ⟨hvalue, htaken, hmore⟩ =>
    ⟨Expr.requireValue_eq_ok.mp hvalue, htaken, hmore⟩

end Recognizes

/-! ## Scopes -/

namespace ReadsFrom

variable {coming : List Token} {given : Setting} {parser : Parser α}
  {post : α → List Token → List Token → List Conversion → Setting → Prop}

/-- What leaves the setting as it is comes before. -/
theorem afterRecognizing {first : Parser β} {second : β → Parser α}
    {before : β → List Token → List Conversion → Prop} (hfirst : Recognizes given first before)
    (h : ∀ value taken rest more, coming = taken ++ rest → before value taken more →
      ReadsFrom rest given (second value) fun result taken' rest' more' final =>
        post result (taken ++ taken') rest' (more ++ more') final) :
    ReadsFrom coming given (first >>= second) post :=
  (hfirst coming).bind fun value taken rest more _ hcoming ⟨hafter, hbefore⟩ =>
    hafter ▸ h value taken rest more hcoming hbefore

theorem withScopes {change : Scopes → Except Breakdown (α × Scopes)} :
    ReadsFrom coming given (Parser.withScopes change) fun value taken _ more after =>
      taken = [] ∧ more = [] ∧ ∃ scopes, change given.scopes = .ok (value, scopes) ∧
        after = { given with scopes } := by
  intro bound warnings
  simp only [Parser.withScopes, ensures_bind, ensures_get]
  split
  next value scopes hchange =>
    simp only [ensures_bind, ensures_set, ensures_pure]
    exact ⟨[], coming, [], { given with scopes }, rfl, by rw [List.append_nil]; rfl, rfl, rfl, scopes,
      hchange, rfl⟩
  next => exact ensures_throw

theorem enterScope (parent : ScopeId) :
    ReadsFrom coming given (Parser.enterScope parent) fun id taken _ more after =>
      taken = [] ∧ more = [] ∧ ∃ scopes, given.scopes.enter parent = .ok (id, scopes) ∧
        after = { given with scopes } := withScopes

theorem reserve (scope : ScopeId) (bytes : Nat) :
    ReadsFrom coming given (Parser.reserve scope bytes) fun _ taken _ more after =>
      taken = [] ∧ more = [] ∧ ∃ scopes, given.scopes.reserve scope bytes = .ok scopes ∧
        after = { given with scopes } :=
  withScopes.mono fun _ _ _ _ _ _ ⟨htaken, hmore, scopes, hchange, hafter⟩ => by
    obtain ⟨reserved, hreserve, hsame⟩ := map_eq_ok.mp hchange
    cases hsame
    exact ⟨htaken, hmore, _, hreserve, hafter⟩

theorem declare (scope : ScopeId) (name : String) (type : Ty) (external : Bool) :
    ReadsFrom coming given (Parser.declare scope ⟨name, nowhere⟩ type external)
      fun symbol taken _ more after => taken = [] ∧ more = [] ∧
        ∃ scopes, given.scopes.declare scope name nowhere type external = .ok (symbol, scopes) ∧
          after = { given with scopes } := by
  intro bound warnings
  simp only [Parser.declare, ensures_bind, ensures_get]
  split
  next symbol scopes hdeclare =>
    simp only [ensures_bind, ensures_set, ensures_pure]
    exact ⟨[], coming, [], { given with scopes }, rfl, by rw [List.append_nil]; rfl, rfl, rfl, scopes,
      hdeclare, rfl⟩
  next => exact ensures_throw

/-- The setting is changed before what follows. -/
theorem moveTo {change : ParseState → ParseState} (given' : Setting)
    (hchange : ∀ bound warnings, change (facing bound given warnings coming) =
      facing bound given' warnings coming)
    {second : PUnit → Parser α} (h : ReadsFrom coming given' (second ⟨⟩) post) :
    ReadsFrom coming given (modify change >>= second) post := by
  intro bound warnings
  refine ensures_bind.mpr (ensures_modify.mpr ?_)
  rw [hchange]
  exact h bound warnings

end ReadsFrom

/-! ## Declarations -/

namespace Recognizes

variable {given : Setting}

/-- An initial value is read from a spelling of a term that can be stored in its target. -/
theorem initialValue (external : Bool) (type : Ty) (name : Located String) :
    Recognizes given (Parser.initialValue external type name) fun e taken more =>
      external = false ∧ ∃ (value : Term) (warnings : List Conversion) (warning : Option Conversion),
        value.Spelling loosestLevel taken ∧
        value.Elaborates given.meaning given.scope e warnings ∧ type.assign e.type = .ok warning ∧
        (given.scope = globalScope → e.isInitializer = true) ∧ more = warnings ++ warning.toList := by
  refine expression.bind ?_
  rintro e taken warnings ⟨value, hspelling, hvalue⟩
  have hstored : external = false → Recognizes given (do
      Parser.bindValue type e
      if (← Parser.scope) = globalScope ∧ ¬ e.isInitializer then
        Parser.failAt (.notConstant name.value) e.location
      return e) fun e taken' more => external = false ∧
        ∃ (value : Term) (warnings' : List Conversion) (warning : Option Conversion),
        value.Spelling loosestLevel (taken ++ taken') ∧
        value.Elaborates given.meaning given.scope e warnings' ∧ type.assign e.type = .ok warning ∧
        (given.scope = globalScope → e.isInitializer = true) ∧
        warnings ++ more = warnings' ++ warning.toList := by
    intro hexternal
    refine (bindValue type hvalue.location_eq).bind ?_
    rintro _ _ _ ⟨rfl, warning, hassign, rfl⟩
    refine scope (ite (fun _ => failAt.bind fun _ _ _ => False.elim) fun hconstant => ?_)
    refine pure ⟨hexternal, value, warnings, warning, ?_, hvalue, hassign, fun hglobal => ?_, ?_⟩
    · rwa [List.append_nil, List.append_nil]
    · by_contra hnot
      exact hconstant ⟨hglobal, hnot⟩
    · rw [List.append_nil]
  refine ite (fun _ => fail.bind fun _ _ _ => False.elim) fun hexternal => ?_
  exact hstored (Bool.not_eq_true _ ▸ hexternal)

end Recognizes

namespace ReadsFrom

variable {coming : List Token} {given : Setting}

/-- After the name of a variable comes its initial value, if it has one. -/
theorem declarationRest {external : Bool} {type : Ty} {name : String} {before : List Token}
    (htype : type.Spelling before) (hvalue : external = false → type.isVoid = false) :
    ReadsFrom coming given (Parser.declarationRest external type ⟨name, nowhere⟩)
      fun d taken _ more after => ∃ declared : Variable,
        declared.Spelling (Variable.externally external (before ++ .identifier name :: taken)) ∧
        declared.Elaborates given d after more := by
  unfold Parser.declarationRest
  refine .optional (fun rest _ => ?_) fun _ => ?_
  · refine .ite (fun _ => ?_) fun hfalse => absurd rfl hfalse
    rw [map_eq_pure_bind, bind_assoc]
    refine .afterRecognizing (Recognizes.initialValue external type _) ?_
    rintro e taken _ _ - ⟨rfl, value, warnings, warning, hspelling, he, hassign, hconstant, rfl⟩
    rw [pure_bind]
    refine .scope ((declare given.scope name type false).bind ?_)
    rintro symbol _ _ _ _ - ⟨rfl, rfl, scopes, hdeclare, rfl⟩
    refine .pure ⟨⟨false, type, name, some value⟩, ?_, ?_⟩
    · rw [List.append_nil, List.append_nil]
      exact .mk htype (.some hspelling)
    · rw [List.append_nil, List.append_nil]
      exact .initial he hassign hconstant hdeclare
  · refine .ite (fun htrue => absurd htrue Bool.false_ne_true) fun _ => ?_
    rw [pure_bind]
    refine .scope ((declare given.scope name type external).bind ?_)
    rintro symbol _ _ _ _ - ⟨rfl, rfl, scopes, hdeclare, rfl⟩
    exact .pure ⟨⟨external, type, name, none⟩, .mk htype .none, .plain hvalue hdeclare⟩

theorem declared (external : Bool) :
    ReadsFrom coming given (do
      let type ← Parser.type
      let name ← Parser.identifier
      if !external then Parser.requireVariable type name
      Parser.declarationRest external type name) fun d taken _ more after =>
        ∃ declared : Variable, declared.Spelling (Variable.externally external taken) ∧
          declared.Elaborates given d after more := by
  refine .afterRecognizing Recognizes.type ?_
  rintro type before _ _ - ⟨htype, rfl⟩
  refine .afterRecognizing Recognizes.identifier ?_
  rintro _ _ _ _ - ⟨name, rfl, rfl, rfl⟩
  have hrest : ∀ {rest : List Token}, (external = false → type.isVoid = false) →
      ReadsFrom rest given (Parser.declarationRest external type ⟨name, nowhere⟩)
        fun d taken _ more after => ∃ declared : Variable,
          declared.Spelling (Variable.externally external (before ++ ([.identifier name] ++ taken))) ∧
          declared.Elaborates given d after ([] ++ ([] ++ more)) :=
    fun hvalue => declarationRest htype hvalue
  refine .ite (fun _ => ?_) fun hexternal => ?_
  · refine .afterRecognizing (Recognizes.requireVariable type _) ?_
    rintro _ _ _ _ - ⟨hvoid, rfl, rfl⟩
    exact hrest fun _ => hvoid
  · exact hrest fun hfalse => absurd (by rw [hfalse]; rfl) hexternal

/-- What is read as a declaration is one. -/
theorem declaration :
    ReadsFrom coming given Parser.declaration fun d taken _ more after =>
      ∃ declared : Variable, declared.Spelling taken ∧ declared.Elaborates given d after more :=
  .optional (fun _ _ => declared true) fun _ => declared false

end ReadsFrom

/-! ## Statements -/

namespace Recognizes

variable {given : Setting}

/-- A condition is read from a term in parentheses that has a value. -/
theorem condition :
    Recognizes given Parser.condition fun c taken more =>
      c.type.isVoid = false ∧ ∃ (t : Term) (tokens : List Token), taken = Term.parenthesized tokens ∧
        t.Spelling loosestLevel tokens ∧ t.Elaborates given.meaning given.scope c more := by
  refine expect (expression.bind ?_)
  rintro c tokens more ⟨t, hspelling, hc⟩
  refine expect ((requireValue c).bind ?_)
  rintro _ _ _ ⟨hvalue, rfl, rfl⟩
  refine pure ⟨hvalue, t, tokens, by simp [Term.parenthesized], hspelling, ?_⟩
  rwa [List.append_nil, List.append_nil]

theorem returnedValue :
    Recognizes given Parser.returnedValue fun value taken more =>
      ∃ phrase : Option Term, (Phrase.returning phrase).Spelling (.keyword .returning :: taken) ∧
        (Phrase.returning phrase).Elaborates given (.returning value given.scope nowhere) given
          more := by
  have hread : Recognizes given (do
      if ← Parser.optional (.mark .semicolon) then
        if !given.returns.isVoid then Parser.fail (.missingReturnValue given.returns)
        return none
      else
        let value ← Parser.expression
        Parser.expect (.mark .semicolon)
        if given.returns.isVoid then Parser.failAt .returnInVoid value.location
        Parser.bindValue given.returns value
        return some value) fun value taken more =>
          ∃ phrase : Option Term, (Phrase.returning phrase).Spelling (.keyword .returning :: taken) ∧
            (Phrase.returning phrase).Elaborates given (.returning value given.scope nowhere) given
              more := by
    refine optional (ite (fun _ => ?_) fun hfalse => absurd rfl hfalse)
      (ite (fun htrue => absurd htrue Bool.false_ne_true) fun _ => ?_)
    · refine ite (fun _ => fail.bind fun _ _ _ => False.elim) fun hvoid => pure ?_
      exact ⟨none, .returnNothing, .returnNothing (by simpa using hvoid)⟩
    · refine expression.bind ?_
      rintro e tokens more ⟨value, hspelling, he⟩
      refine expect (ite (fun _ => failAt.bind fun _ _ _ => False.elim) fun _ => ?_)
      refine (bindValue given.returns he.location_eq).bind ?_
      rintro _ _ _ ⟨rfl, warning, hassign, rfl⟩
      refine pure ⟨some value, .returnValue hspelling, ?_⟩
      rw [List.append_nil]
      exact .returnValue he hassign
  exact fun coming bound warnings =>
    ensures_bind.mpr (ensures_get.mpr (hread coming bound warnings))

/-- An expression statement is read from a term and a semicolon. -/
theorem expressionStatement :
    Recognizes given Parser.expressionStatement fun statement taken more =>
      ∃ value : Term, (Phrase.expression value).Spelling taken ∧
        (Phrase.expression value).Elaborates given statement given more := by
  refine expression.bind ?_
  rintro e tokens more ⟨value, hspelling, he⟩
  refine expect ?_
  have hwhole : (e.isCall = false → e.type.isVoid = false) →
      Recognizes given (Pure.pure (Statement.expression e)) fun statement taken others =>
        ∃ value : Term, (Phrase.expression value).Spelling (tokens ++ .mark .semicolon :: taken) ∧
          (Phrase.expression value).Elaborates given statement given (more ++ others) :=
    fun hvalue => pure ⟨value, .expression hspelling, by
      rw [List.append_nil]
      exact .expression he hvalue⟩
  refine ite (fun _ => (requireValue e).bind ?_) fun hcall => hwhole fun hno => ?_
  · rintro _ _ _ ⟨hvalue, rfl, rfl⟩
    exact hwhole fun _ => hvalue
  · exact absurd (by rw [hno]; rfl) hcall

end Recognizes

/-- A statement is spelled by the tokens taken for it: a phrase that may stand under a condition
elaborates to it, and if the phrase is open, no `else` is left behind it. -/
def SpelledStatement (given : Setting) (statement : Statement) (taken rest : List Token)
    (more : List Conversion) (after : Setting) : Prop :=
  ∃ phrase : Phrase, phrase.Spelling taken ∧ phrase.isDeclaration = false ∧
    phrase.Elaborates given statement after more ∧
    (phrase.isOpen = true → rest.head? ≠ some (.keyword .elseThen))

namespace ReadsFrom

section Blocks

variable {statement : Parser Statement}
  (hstatement : ∀ given coming, ReadsFrom coming given statement (SpelledStatement given))
include hstatement

theorem blockRest (count : Nat) (given : Setting) (coming : List Token) :
    ReadsFrom coming given (Parser.blockRest statement count) fun body taken _ more after =>
      ∃ (phrases : List Phrase) (inside : List Token), taken = inside ++ [.mark .closeBrace] ∧
        Phrase.AllSpelling phrases inside ∧ Phrase.AllElaborate given phrases body after more := by
  induction count generalizing given coming with
  | zero => exact .fail
  | succ count ih =>
      have hnext : ∀ {phrase : Phrase} {s : Statement} {tokens rest : List Token}
          {more : List Conversion} {middle : Setting}, phrase.Spelling tokens →
          phrase.Elaborates given s middle more →
          ReadsFrom rest middle (do return s :: (← Parser.blockRest statement count))
            fun body taken _ others after => ∃ (phrases : List Phrase) (inside : List Token),
              tokens ++ taken = inside ++ [.mark .closeBrace] ∧ Phrase.AllSpelling phrases inside ∧
              Phrase.AllElaborate given phrases body after (more ++ others) := by
        intro phrase s tokens rest more middle hspelling hs
        refine (ih middle rest).bind ?_
        rintro body _ rest' others after - ⟨phrases, inside, rfl, hphrases, hbody⟩
        refine .pure ⟨phrase :: phrases, tokens ++ inside, ?_, .cons hspelling hphrases, ?_⟩
        · rw [List.append_nil, List.append_assoc]
        · rw [List.append_nil]
          exact .cons hs hbody
      refine .optional (fun rest _ => ?_) fun _ => ?_
      · refine .ite (fun _ => .pure ?_) fun hfalse => absurd rfl hfalse
        exact ⟨[], [], rfl, .nil, .nil⟩
      · refine .ite (fun htrue => absurd htrue Bool.false_ne_true) fun _ => ?_
        refine .peek (.ite (fun _ => ?_) fun _ => ?_)
        · refine declaration.bind ?_
          rintro d tokens rest more middle - ⟨declared, hspelling, hd⟩
          refine .expect fun rest _ => ?_
          rw [pure_bind]
          refine (hnext (.declaration hspelling) (.declaration hd)).mono fun _ _ _ _ _ _ h => ?_
          rwa [List.append_assoc] at h
        · refine (hstatement given coming).bind ?_
          rintro s tokens rest more middle - ⟨phrase, hspelling, -, hs, -⟩
          exact hnext hspelling hs

/-- A block is read in a scope of its own. -/
theorem block (given : Setting) (coming : List Token) :
    ReadsFrom coming given (Parser.block statement) fun read taken _ more after =>
      ∃ (phrases : List Phrase) (inside : List Token) (entered : Scopes) (final : Setting),
        taken = .mark .openBrace :: (inside ++ [.mark .closeBrace]) ∧
        Phrase.AllSpelling phrases inside ∧
        given.scopes.enter given.scope = .ok (read.1, entered) ∧
        Phrase.AllElaborate { given with scopes := entered, scope := read.1 } phrases read.2.1 final
          more ∧
        read.2.2 = nowhere ∧ after = { final with scope := given.scope } := by
  refine .expect fun rest _ => .last (.scope ((enterScope given.scope).bind ?_))
  rintro inner _ rest _ _ - ⟨rfl, rfl, entered, henter, rfl⟩
  refine moveTo { given with scopes := entered, scope := inner } (fun _ _ => rfl) ?_
  refine .bound fun count => (blockRest hstatement count _ rest).bind ?_
  rintro body _ rest more final - ⟨phrases, inside, rfl, hspelling, hbody⟩
  refine moveTo { final with scope := given.scope } (fun _ _ => rfl) (.last (.pure ?_))
  refine ⟨phrases, inside, entered, final, ?_, hspelling, henter, ?_, rfl, rfl⟩
  · simp
  · simpa using hbody

end Blocks

/-- What is read as a statement is one. -/
theorem statementWithin (count : Nat) (given : Setting) (coming : List Token) :
    ReadsFrom coming given (Parser.statementWithin count) (SpelledStatement given) := by
  -- On the nesting that is left. The cases are the words a statement begins with: `return`, `if`,
  -- `while`, an opening brace, and those of expressions.
  induction count generalizing given coming with
  | zero => exact .fail
  | succ count ih =>
      unfold Parser.statementWithin
      refine .peek ?_
      split
      · refine .expect fun rest _ => .last ?_
        refine .afterRecognizing Recognizes.returnedValue ?_
        rintro value taken rest more - ⟨phrase, hspelling, hvalue⟩
        refine .scope (.pure ⟨.returning phrase, ?_, rfl, ?_, fun hopen => by cases hopen⟩)
        · rwa [List.append_nil]
        · rwa [List.append_nil]
      · refine .expect fun rest _ => .last ?_
        refine .afterRecognizing Recognizes.condition ?_
        rintro c _ rest first - ⟨hvalue, t, tokens, rfl, hcondition, hc⟩
        refine (ih given rest).bind ?_
        rintro y inside rest second middle - ⟨yes, hyes, hstatement, hy, hopen⟩
        refine .optional (fun rest hrest => ?_) fun helse => ?_
        · refine .ite (fun _ => ?_) fun hfalse => absurd rfl hfalse
          -- An open phrase would have taken the `else` that is left behind it.
          have hclosed : yes.isOpen = false := by
            by_contra hyesOpen
            exact hopen (by simpa using hyesOpen) (by rw [hrest, List.head?_cons])
          refine (ih middle rest).bind ?_
          rintro n other rest third after - ⟨no, hno, hstatement', hn, hopen'⟩
          refine .pure ⟨.choice t yes no, ?_, rfl, ?_, hopen'⟩
          · simpa using Phrase.Spelling.choice hcondition hyes hstatement hclosed hno hstatement'
          · simpa using Phrase.Elaborates.choice hc hvalue hy hn
        · refine .ite (fun htrue => absurd htrue Bool.false_ne_true) fun _ => ?_
          refine .pure ⟨.branch t yes, ?_, rfl, ?_, fun _ => helse⟩
          · simpa using Phrase.Spelling.branch hcondition hyes hstatement
          · simpa using Phrase.Elaborates.branch hc hvalue hy
      · refine .expect fun rest _ => .last ?_
        refine .afterRecognizing Recognizes.condition ?_
        rintro c _ rest first - ⟨hvalue, t, tokens, rfl, hcondition, hc⟩
        refine (ih given rest).bind ?_
        rintro b inside rest second after - ⟨body, hbody, hstatement, hb, hopen⟩
        refine .pure ⟨.loop t body, ?_, rfl, ?_, hopen⟩
        · simpa using Phrase.Spelling.loop hcondition hbody hstatement
        · simpa using Phrase.Elaborates.loop hc hvalue hb
      · refine (block ih given coming).bind ?_
        rintro ⟨inner, body, location⟩ _ rest more after -
          ⟨phrases, inside, entered, final, rfl, hspelling, henter, hbody, rfl, rfl⟩
        refine .pure ⟨.block phrases, ?_, rfl, ?_, fun hopen => by cases hopen⟩
        · simpa using Phrase.Spelling.block hspelling
        · simpa using Phrase.Elaborates.block henter hbody
      · refine (Recognizes.expressionStatement coming).mono ?_
        rintro s taken rest more _ - ⟨rfl, value, hspelling, hs⟩
        exact ⟨.expression value, hspelling, rfl, hs, fun hopen => by cases hopen⟩

theorem statement (given : Setting) (coming : List Token) :
    ReadsFrom coming given Parser.statement (SpelledStatement given) :=
  .bound fun count => statementWithin count given coming

/-! ## Functions and items -/

theorem parameter (scope : ScopeId) (given : Setting) (coming : List Token) :
    ReadsFrom coming given (Parser.parameter scope) fun type taken _ more after =>
      ∃ (parameter : Parameter) (symbol : Symbol) (scopes : Scopes), parameter.Spelling taken ∧
        type = parameter.type ∧ parameter.type.isVoid = false ∧
        given.scopes.declare scope parameter.name nowhere parameter.type false =
          .ok (symbol, scopes) ∧ more = [] ∧ after = { given with scopes } := by
  refine .afterRecognizing Recognizes.type ?_
  rintro type tokens rest _ - ⟨htype, rfl⟩
  refine .afterRecognizing Recognizes.identifier ?_
  rintro _ _ rest _ - ⟨name, rfl, rfl, rfl⟩
  refine .afterRecognizing (Recognizes.requireVariable type _) ?_
  rintro _ _ rest _ - ⟨hvoid, rfl, rfl⟩
  refine (declare scope name type false).bind ?_
  rintro symbol _ rest _ _ - ⟨rfl, rfl, scopes, hdeclare, rfl⟩
  exact .pure ⟨⟨type, name⟩, symbol, scopes, .mk htype, rfl, hvoid, hdeclare, rfl, rfl⟩

theorem parameters (scope : ScopeId) (count : Nat) (given : Setting) (coming : List Token) :
    ReadsFrom coming given (Parser.separated (Parser.parameter scope) count)
      fun types taken _ more after =>
        ∃ (parts : List (Parameter × List Token)) (scopes : Scopes),
          (∀ part ∈ parts, part.1.Spelling part.2) ∧ parts ≠ [] ∧
          taken = Term.commaSeparated (parts.map (·.2)) ∧
          types = (parts.map (·.1)).map (·.type) ∧
          Parameter.AllElaborate scope given.scopes (parts.map (·.1)) scopes ∧ more = [] ∧
          after = { given with scopes } := by
  induction count generalizing given coming with
  | zero => exact .fail
  | succ count ih =>
      refine (parameter scope given coming).bind ?_
      rintro kind tokens rest _ _ -
        ⟨⟨_, name⟩, symbol, middle, hspelling, rfl, hvoid, hdeclare, rfl, rfl⟩
      refine .optional (fun rest _ => ?_) fun _ => ?_
      · refine .ite (fun _ => ?_) fun hfalse => absurd rfl hfalse
        refine (ih _ rest).bind ?_
        rintro _ _ _ _ _ - ⟨parts, scopes, hparts, hsome, rfl, rfl, hrest, rfl, rfl⟩
        obtain ⟨second, others, rfl⟩ := List.exists_cons_of_ne_nil hsome
        refine .pure ⟨(⟨kind, name⟩, tokens) :: second :: others, scopes,
          List.forall_mem_cons.mpr ⟨hspelling, hparts⟩, by simp, ?_, rfl, .cons hvoid hdeclare hrest,
          rfl, rfl⟩
        simp [Term.commaSeparated_cons]
      · refine .ite (fun htrue => absurd htrue Bool.false_ne_true) fun _ => ?_
        exact .pure ⟨[(⟨kind, name⟩, tokens)], middle, List.forall_mem_singleton.mpr hspelling, by simp,
          by simp [Term.commaSeparated_singleton], rfl, .cons hvoid hdeclare .nil, rfl, rfl⟩

/-- After the parameters of a function comes its body. -/
theorem functionRest {result : Ty} {name : String} {scope : ScopeId} {scopes entered : Scopes}
    {tokens inner : List Token} {given : Setting} (parts : List (Parameter × List Token))
    (hresult : result.Spelling tokens) (hparts : ∀ part ∈ parts, part.1.Spelling part.2)
    (hinner : inner = Term.commaSeparated (parts.map (·.2)))
    (henter : scopes.enter globalScope = .ok (scope, entered))
    (hparameters : Parameter.AllElaborate scope entered (parts.map (·.1)) given.scopes)
    (coming : List Token) :
    ReadsFrom coming given
      (Parser.functionRest result ⟨name, nowhere⟩ scope ((parts.map (·.1)).map (·.type)))
      fun f taken _ more after => ∃ (defined : Routine) (final : Scopes),
        defined.Spelling (tokens ++ .identifier name :: .mark .openParen :: (inner ++ taken)) ∧
        defined.Elaborates scopes f final more ∧ after = ⟨final, globalScope, none⟩ := by
  refine .expect fun rest _ => (reserve scope returnAddressSize).bind ?_
  rintro _ _ rest _ _ - ⟨rfl, rfl, reserved, hreserve, rfl⟩
  refine (declare globalScope name _ false).bind ?_
  rintro symbol _ rest _ _ - ⟨rfl, rfl, declared, hdeclare, rfl⟩
  refine moveTo ⟨declared, scope, some result⟩ (fun _ _ => rfl) ?_
  refine (block statement _ rest).bind ?_
  rintro ⟨inner', body, location⟩ _ rest more _ -
    ⟨phrases, inside, opened, final, rfl, hspelling, hopen, hbody, rfl, rfl⟩
  refine moveTo ⟨final.scopes, globalScope, none⟩ (fun _ _ => rfl) (.pure ?_)
  refine ⟨⟨result, name, parts.map (·.1), phrases⟩, final.scopes, ?_, ?_, rfl⟩
  · subst hinner
    simpa [Term.parenthesized] using Routine.Spelling.mk hresult hparts hspelling
  · simpa using Routine.Elaborates.mk henter hparameters hreserve hdeclare hopen hbody

theorem function (given : Setting) (coming : List Token) :
    ReadsFrom coming given Parser.function fun f taken _ more after =>
      ∃ (defined : Routine) (scopes : Scopes), defined.Spelling taken ∧
        defined.Elaborates given.scopes f scopes more ∧ after = ⟨scopes, globalScope, none⟩ := by
  refine .afterRecognizing Recognizes.type ?_
  rintro result tokens rest _ - ⟨hresult, rfl⟩
  refine .afterRecognizing Recognizes.identifier ?_
  rintro _ _ rest _ - ⟨name, rfl, rfl, rfl⟩
  refine .expect fun rest _ => (enterScope globalScope).bind ?_
  rintro scope _ rest _ _ - ⟨rfl, rfl, entered, henter, rfl⟩
  refine .peek (.ite (fun _ => ?_) fun _ => ?_)
  · rw [pure_bind]
    exact functionRest [] hresult (List.forall_mem_nil _) rfl henter .nil rest
  · refine .bound fun count => (parameters scope count _ rest).bind ?_
    rintro _ inner rest _ _ - ⟨parts, scopes, hparts, -, hinner, rfl, hparameters, rfl, rfl⟩
    exact functionRest parts hresult hparts hinner henter hparameters rest

/-- Outside of functions, what is read as an item is an entry of a source. -/
theorem item (scopes : Scopes) (coming : List Token) :
    ReadsFrom coming ⟨scopes, globalScope, none⟩ Parser.item fun item taken _ more after =>
      ∃ (entry : Entry) (final : Scopes), entry.Spelling taken ∧
        entry.Elaborates scopes item final more ∧ after = ⟨final, globalScope, none⟩ := by
  intro bound warnings
  refine ensures_bind.mpr (ensures_get.mpr (ensures_ite.mpr ⟨fun _ => ?_, fun _ => ?_⟩))
  · refine (function _ coming).bind ?_ bound warnings
    rintro f taken rest more _ - ⟨defined, final, hspelling, hf, rfl⟩
    refine .pure ⟨.function defined, final, ?_, ?_, rfl⟩
    · rw [List.append_nil]
      exact .function hspelling
    · rw [List.append_nil]
      exact .function hf
  · refine declaration.bind ?_ bound warnings
    rintro d taken rest more after - ⟨declared, hspelling, hd⟩
    refine .expect fun rest _ => .pure ⟨.global declared, after.scopes, .global hspelling, ?_, ?_⟩
    · rw [List.append_nil]
      exact .global hd
    · obtain ⟨hscope, hresult⟩ := hd.keeps
      exact congrArg₂ (Setting.mk after.scopes) hscope hresult

/-- With enough rounds all tokens are read. -/
theorem items (count : Nat) (scopes : Scopes) (coming : List Token) (hcount : coming.length ≤ count) :
    ReadsFrom coming ⟨scopes, globalScope, none⟩ (Parser.items count)
      fun items taken rest more after => ∃ (entries : List Entry) (final : Scopes),
        Entry.AllSpelling entries taken ∧ Entry.AllElaborate scopes entries items final more ∧
        rest = [] ∧ after = ⟨final, globalScope, none⟩ := by
  induction count generalizing scopes coming with
  | zero =>
      obtain rfl := List.eq_nil_of_length_eq_zero (Nat.le_zero.mp hcount)
      exact .pure ⟨[], scopes, .nil, .nil, rfl, rfl⟩
  | succ count ih =>
      refine .peek (.ite (fun hnone => ?_) fun _ => ?_)
      · obtain rfl : coming = [] := by simpa using hnone
        exact .pure ⟨[], scopes, .nil, .nil, rfl, rfl⟩
      · refine (item scopes coming).bind ?_
        rintro item taken rest more _ hcoming ⟨entry, middle, hspelling, hitem, rfl⟩
        -- Each entry takes a token at least, so the rounds last.
        have hlength : rest.length ≤ count := by
          obtain ⟨word, others, rfl⟩ := hspelling.begins
          rw [hcoming] at hcount
          simp only [List.length_append, List.length_cons] at hcount
          omega
        refine (ih middle rest hlength).bind ?_
        rintro items taken' rest' more' _ - ⟨entries, final, hrest, hitems, rfl, rfl⟩
        refine .pure ⟨entry :: entries, final, ?_, ?_, rfl, rfl⟩
        · rw [List.append_nil]
          exact .cons hspelling hrest
        · rw [List.append_nil]
          exact .cons hitem hitems

end ReadsFrom

/-- The setting in which a program is read. -/
def Setting.outermost : Setting := ⟨.initial, globalScope, none⟩

theorem ensures_program {bound : Nat} {coming : List Token} (hbound : coming.length ≤ bound) :
    Ensures Parser.program (facing bound .outermost [] coming) fun items final =>
      ∃ (entries : List Entry) (scopes : Scopes) (more : List Conversion),
        Entry.AllSpelling entries coming ∧ Entry.AllElaborate .initial entries items scopes more ∧
        scopes.HasMain ∧ final.scopes = scopes ∧ final.warnings = placeless more := by
  refine ensures_bind.mpr (ensures_bind.mpr (ensures_get.mpr (ensures_pure.mpr ?_)))
  refine ensures_bind.mpr ((ReadsFrom.items bound .initial coming hbound bound []).mono ?_)
  rintro items _ ⟨taken, _, more, _, rfl, rfl, entries, scopes, hspelling, hitems, rfl, rfl⟩
  refine ensures_bind.mpr (ensures_get.mpr ?_)
  split
  next main hmain =>
    refine ensures_ite.mpr ⟨fun hfunction => ensures_pure.mpr ?_, fun _ => ensures_fail⟩
    refine ⟨entries, scopes, more, ?_, hitems, ⟨main, hmain, hfunction⟩, rfl, rfl⟩
    rwa [List.append_nil]
  next => exact ensures_fail

end AccumulatorC.Parser

namespace AccumulatorC

theorem unplacedTokens_value (tokens : List (Located Token)) :
    unplacedTokens (tokens.map (·.value)) = tokens.map Located.unplaced := by
  rw [unplacedTokens, List.map_map]
  rfl

/-- Tokens that are nowhere are read in front of them all. -/
theorem Program.ofTokens_facing (tokens : List Token) :
    Program.ofTokens (unplacedTokens tokens) =
      match Parser.program (Parser.facing tokens.length .outermost [] tokens) with
      | .ok (list, state) => .ok ⟨⟨list, state.scopes⟩, state.warnings⟩
      | .error stop => .error stop := by
  have hlast : nowhere = (unplacedTokens tokens).head?.elim nowhere (·.location) := by
    cases tokens <;> rfl
  rw [ofTokens_eq hlast, unplacedTokens, List.length_map]
  rfl

/-- What is read as a program is a source: it is spelled by the tokens, and it elaborates to the
program, up to places. -/
theorem Program.ofTokens_source {tokens : List (Located Token)} {parsed : Parsed}
    (h : Program.ofTokens tokens = .ok parsed) :
    ∃ entries : List Entry, Entry.AllSpelling entries (tokens.map (·.value)) ∧
      Entry.AllElaborate .initial entries parsed.program.unplaced.items
        parsed.program.unplaced.scopes (parsed.warnings.map (·.value)) ∧
      parsed.program.unplaced.scopes.HasMain := by
  have hrun := ofTokens_unplaced tokens
  rw [h, ← unplacedTokens_value, ofTokens_facing] at hrun
  dsimp only at hrun
  split at hrun
  next list state hread =>
    obtain ⟨entries, scopes, more, hspelling, hitems, hmain, rfl, hwarnings⟩ :=
      Parser.ensures_program (Nat.le_refl _) list state hread
    obtain ⟨hprogram, hparsed⟩ := Parsed.mk.inj (Except.ok.inj hrun)
    have hmore : parsed.warnings.map (·.value) = more := by
      rw [hwarnings] at hparsed
      have hvalues := congrArg (List.map (·.value)) hparsed
      rw [Parser.map_value_placeless, List.map_map] at hvalues
      exact hvalues.symm
    rw [← hprogram, hmore]
    exact ⟨entries, hspelling, hitems, hmain⟩
  next => cases hrun

end AccumulatorC
