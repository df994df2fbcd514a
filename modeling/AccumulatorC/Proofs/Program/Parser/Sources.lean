import AccumulatorC.Proofs.Program.Parser.Spelling
import AccumulatorC.Proofs.Program.Parser.Unit

/-!
# Programs are written as they are spelled

Every item of a program stands in tokens of its own, whose calls and string literals are those of
the item, and the tokens of the items, one after the other, are the source. All symbols of the
program have their names from it.
-/

namespace AccumulatorC.Parser

variable {α β : Type} {source : List Token}

/-! ## Names before what is not known yet -/

/-- As `Taken`, when the last token may be a name: the calls and strings in the tokens are known
unless a parenthesis is opened next. -/
structure Pending (source : List Token) (state : ParseState) (found : List Mention)
    (after : ParseState) : Prop where
  suffix : after.coming <:+ state.coming
  settled : after.coming.head? ≠ some (.mark .openParen) →
    state.coming.head? ≠ some (.mark .openParen) ∧
      mentions state.coming = found ++ mentions after.coming
  scopes : after.scopes.ComeFrom source

namespace Pending

variable {state middle after : ParseState} {found : List Mention}

theorem within (h : Pending source state found after) (hstate : Within source state) :
    Within source after :=
  ⟨h.suffix.trans hstate.coming, h.scopes⟩

/-- Nothing has been taken yet. -/
theorem of_eq (hcoming : after.coming = state.coming) (hscopes : after.scopes.ComeFrom source) :
    Pending source state [] after :=
  ⟨hcoming ▸ List.suffix_rfl, fun hhead => ⟨hcoming ▸ hhead, by rw [hcoming]; rfl⟩, hscopes⟩

/-- Tokens with a known first one have been taken before. -/
theorem of_taken {token : Token} (h : Taken source state found after)
    (hhead : state.coming.head? = some token) (hopen : token ≠ .mark .openParen) :
    Pending source state found after :=
  ⟨h.suffix, fun _ => ⟨by simpa [hhead] using hopen, h.mentions_eq⟩, h.scopes⟩

/-- A name stands in front. -/
theorem name {name : String} (hcoming : state.coming = .identifier name :: middle.coming)
    (h : Pending source middle found after) : Pending source state found after := by
  refine ⟨h.suffix.trans ⟨[.identifier name], hcoming.symm⟩, fun hhead => ?_, h.scopes⟩
  obtain ⟨hmiddle, hmentions⟩ := h.settled hhead
  rw [hcoming, mentions_identifier hmiddle]
  exact ⟨by simp, hmentions⟩

/-- A type stands in front. -/
theorem type {kind : Keyword} {taken : Nat}
    (hcoming : state.coming =
      .keyword kind :: (List.replicate taken (.mark .star) ++ middle.coming))
    (h : Pending source middle found after) : Pending source state found after := by
  refine ⟨h.suffix.trans ?_, fun hhead => ?_, h.scopes⟩
  · rw [hcoming]
    exact (List.suffix_append _ _).trans (List.suffix_cons _ _)
  · rw [hcoming, mentions_type]
    exact ⟨by simp, (h.settled hhead).2⟩

/-- The word for symbols that are defined elsewhere stands in front. -/
theorem word (hcoming : state.coming = .keyword .external :: middle.coming)
    (h : Pending source middle found after) : Pending source state found after := by
  refine ⟨h.suffix.trans ⟨[.keyword .external], hcoming.symm⟩, fun hhead => ?_, h.scopes⟩
  rw [hcoming, mentions_quiet rfl]
  exact ⟨by simp, (h.settled hhead).2⟩

/-- A token that mentions nothing comes next, and then more. -/
theorem next {token : Token} {between : ParseState} {more : List Mention}
    (h : Pending source state found middle) (hquiet : token.isQuiet = true)
    (hopen : token ≠ .mark .openParen) (hcoming : middle.coming = token :: between.coming)
    (h' : Pending source between more after) : Pending source state (found ++ more) after := by
  obtain ⟨hhead, hmentions⟩ := h.settled (by simpa [hcoming] using hopen)
  refine ⟨(h'.suffix.trans ⟨[token], hcoming.symm⟩).trans h.suffix, fun hafter => ⟨hhead, ?_⟩,
    h'.scopes⟩
  rw [hmentions, hcoming, mentions_quiet hquiet, (h'.settled hafter).2, List.append_assoc]

/-- A token that mentions nothing comes next. -/
theorem close {token : Token} (h : Pending source state found middle) (hquiet : token.isQuiet = true)
    (hopen : token ≠ .mark .openParen) (hcoming : middle.coming = token :: after.coming)
    (hscopes : after.scopes = middle.scopes) : Taken source state found after := by
  refine ⟨List.IsSuffix.trans ⟨[token], hcoming.symm⟩ h.suffix, ?_, hscopes ▸ h.scopes⟩
  rw [(h.settled (by simpa [hcoming] using hopen)).2, hcoming, mentions_quiet hquiet]

end Pending

/-- Tokens have been taken, of which the first is a keyword. -/
def Begins (state after : ParseState) : Prop :=
  ∃ word rest, state.coming = .keyword word :: rest ∧ after.coming <:+ rest

/-! ## Scopes -/

namespace Takes

theorem withScopes {change : Scopes → Except Breakdown (α × Scopes)}
    (h : ∀ scopes value after, scopes.ComeFrom source → change scopes = .ok (value, after) →
      after.ComeFrom source) :
    Takes source (Parser.withScopes change) fun _ found => found = [] := by
  intro state hstate
  simp only [Parser.withScopes, TakesFrom, ensures_bind, ensures_get]
  split
  next value scopes hchange =>
    simp only [ensures_bind, ensures_set, ensures_pure]
    exact ⟨[], ⟨List.suffix_rfl, rfl, h _ _ _ hstate.scopes hchange⟩, rfl⟩
  next => exact ensures_throw

theorem enterScope (parent : ScopeId) :
    Takes source (Parser.enterScope parent) fun _ found => found = [] :=
  withScopes fun _ _ _ hscopes henter => hscopes.enter henter

theorem reserve (scope : ScopeId) (bytes : Nat) :
    Takes source (Parser.reserve scope bytes) fun _ found => found = [] := by
  refine withScopes fun scopes _ after hscopes hreserve => ?_
  rw [map_eq_ok] at hreserve
  obtain ⟨found, hfound, hsame⟩ := hreserve
  cases hsame
  exact hscopes.reserve hfound

/-- Declaring a name takes no token. -/
theorem ensures_declare {state : ParseState} {scope : ScopeId} {name : Located String} {type : Ty}
    {external : Bool} (hstate : Within source state) (hname : .identifier name.value ∈ source)
    (hexternal : external = true → DeclaredExternal source name.value) :
    Ensures (Parser.declare scope name type external) state fun symbol after =>
      symbol.name = name.value ∧ after.coming = state.coming ∧ after.scopes.ComeFrom source := by
  simp only [Parser.declare, ensures_bind, ensures_get]
  split
  next symbol scopes hdeclare =>
    simp only [ensures_bind, ensures_set, ensures_pure]
    obtain ⟨_, _, _, -, -, -, hsymbol, -⟩ := Scopes.declare_eq_ok hdeclare
    exact ⟨by rw [hsymbol], rfl, hstate.scopes.declare hdeclare hname hexternal⟩
  next => exact ensures_throw

theorem declare {scope : ScopeId} {name : Located String} {type : Ty}
    (hname : .identifier name.value ∈ source) :
    Takes source (Parser.declare scope name type false) fun symbol found =>
      symbol.name = name.value ∧ found = [] := fun state hstate =>
  (ensures_declare hstate hname Bool.false_ne_true.elim).mono
    fun symbol after ⟨hsymbol, hcoming, hscopes⟩ =>
      ⟨[], ⟨hcoming ▸ List.suffix_rfl, by rw [hcoming]; rfl, hscopes⟩, hsymbol, rfl⟩

theorem moveTo (scope : ScopeId) :
    Takes source (modify fun state => { state with scope }) fun _ found => found = [] :=
  fun _ hstate => ensures_modify.mpr ⟨[], ⟨List.suffix_rfl, rfl, hstate.scopes⟩, rfl⟩

theorem moveInto (scope : ScopeId) (result : Option Ty) :
    Takes source (modify fun state => { state with scope, result }) fun _ found => found = [] :=
  fun _ hstate => ensures_modify.mpr ⟨[], ⟨List.suffix_rfl, rfl, hstate.scopes⟩, rfl⟩

/-! ## Declarations -/

theorem ensures_requireVariable {state : ParseState} {type : Ty} {name : Located String}
    {post : Unit → ParseState → Prop} (h : post () state) :
    Ensures (Parser.requireVariable type name) state post :=
  ensures_ite.mpr ⟨fun _ => ensures_failAt, fun _ => ensures_pure.mpr h⟩

/-- The calls and strings of an initial value are those in its tokens. -/
theorem initialValue (external : Bool) (type : Ty) (name : Located String) :
    Takes source (Parser.initialValue external type name) Expr.Spelled := by
  refine expression.bind fun value found hvalue => ?_
  have hrest : Takes source (do
      Parser.bindValue type value
      if (← Parser.scope) = globalScope ∧ ¬ value.isInitializer then
        Parser.failAt (.notConstant name.value) value.location
      return value) fun e more => e.Spelled (found ++ more) := by
    refine (bindValue type value).quietly fun _ => scope.quietly fun here => ?_
    refine ite (fun _ _ _ => ?_) fun _ => pure (by simpa using hvalue)
    simp [TakesFrom]
  refine ite (fun _ _ _ => ?_) fun _ => hrest
  simp [TakesFrom]

end Takes

/-- The rest of a declaration, after its name. -/
def declarationRest (external : Bool) (type : Ty) (name : Located String) : Parser Declaration := do
  let initial ←
    if ← optional (.mark .assign) then some <$> initialValue external type name
    else pure none
  return ⟨← declare (← scope) name type external, initial⟩

namespace Takes

theorem ensures_declarationRest {external : Bool} {type : Ty} {name : Located String}
    {state : ParseState} (hstate : Within source state) (hname : .identifier name.value ∈ source)
    (hexternal : external = true → DeclaredExternal source name.value) :
    Ensures (declarationRest external type name) state fun declared after =>
      Pending source state (declared.initial.elim [] Expr.written) after := by
  have hdeclare : ∀ (initial : Option Expr) (before : ParseState), Within source before →
      Ensures (do
        return (⟨← Parser.declare (← Parser.scope) name type external, initial⟩ : Declaration))
        before fun declared after => declared.initial = initial ∧ after.coming = before.coming ∧
          after.scopes.ComeFrom source := by
    intro initial before hbefore
    simp only [Parser.scope, ensures_bind, ensures_get, ensures_pure]
    exact (ensures_declare hbefore hname hexternal).mono fun _ _ hafter => ⟨trivial, hafter.2⟩
  refine ensures_bind.mpr (ensures_optional (fun middle hmiddle hkeep => ?_) fun hhead => ?_)
  · have htaken := Taken.ofQuiet hstate rfl hmiddle hkeep
    refine ensures_bind.mpr (ensures_map.mpr ?_)
    refine (initialValue external type name middle (htaken.within hstate)).mono ?_
    rintro value before ⟨found, hfound, hvalue, -⟩
    have hbefore := htaken.trans hfound
    refine (hdeclare (some value) before (hbefore.within hstate)).mono ?_
    rintro ⟨symbol, initial⟩ after ⟨rfl, hcoming, hscopes⟩
    refine .of_taken ⟨hcoming ▸ hbefore.suffix, ?_, hscopes⟩ (by rw [hmiddle]; rfl) (by decide)
    rw [hcoming, hbefore.mentions_eq, ← hvalue]
    rfl
  · refine ensures_bind.mpr (ensures_pure.mpr ?_)
    refine (hdeclare none state hstate).mono ?_
    rintro ⟨symbol, initial⟩ after ⟨rfl, hcoming, hscopes⟩
    exact .of_eq hcoming hscopes

/-- A declaration after the word for symbols that are defined elsewhere, whether it is there or
not. It begins with a keyword, and may end with a name. -/
theorem ensures_declared {external : Bool} {state middle : ParseState}
    (hstate : Within source state) (hmiddle : Within source middle)
    (hword : external = true → state.coming = .keyword .external :: middle.coming) :
    Ensures (do
      let type ← Parser.type
      let name ← identifier
      if !external then requireVariable type name
      declarationRest external type name) middle fun declared after =>
        Pending source middle (declared.initial.elim [] Expr.written) after ∧
          Begins middle after := by
  refine ensures_bind.mpr (ensures_type fun type kind taken named hkind hnamed hkeep => ?_)
  refine ensures_bind.mpr (ensures_identifier fun name last hlast hkeep' => ?_)
  have hshape : middle.coming = .keyword kind ::
      (List.replicate taken (.mark .star) ++ .identifier name.value :: last.coming) := by
    rw [hnamed, hlast]
  have hsuffix : last.coming <:+ middle.coming := by
    rw [hshape]
    exact ((List.suffix_cons _ _).trans (List.suffix_append _ _)).trans (List.suffix_cons _ _)
  have hwithin : Within source last :=
    ⟨hsuffix.trans hmiddle.coming, by rw [hkeep', hkeep]; exact hmiddle.scopes⟩
  have hname : .identifier name.value ∈ source :=
    hmiddle.coming.subset (by rw [hshape]; simp)
  have hexternal : external = true → DeclaredExternal source name.value := by
    intro hyes
    obtain ⟨before, hsource⟩ := hstate.coming
    exact ⟨before, kind, taken, last.coming, hkind, by rw [← hsource, hword hyes, hshape]⟩
  have hrest : Ensures (declarationRest external type name) last fun declared after =>
      Pending source middle (declared.initial.elim [] Expr.written) after ∧ Begins middle after :=
    (ensures_declarationRest hwithin hname hexternal).mono fun declared after h =>
      ⟨(h.name hlast).type hnamed, kind, _, hshape,
        h.suffix.trans ((List.suffix_cons _ _).trans (List.suffix_append _ _))⟩
  refine ensures_ite.mpr ⟨fun _ => ?_, fun _ => hrest⟩
  exact ensures_bind.mpr (ensures_requireVariable hrest)

theorem ensures_declaration {state : ParseState} (hstate : Within source state) :
    Ensures Parser.declaration state fun declared after =>
      Pending source state (declared.initial.elim [] Expr.written) after ∧ Begins state after := by
  refine ensures_bind.mpr (ensures_optional (fun middle hmiddle hkeep => ?_) fun _ => ?_)
  · have htaken := Taken.ofQuiet hstate rfl hmiddle hkeep
    refine (ensures_declared hstate (htaken.within hstate) fun _ => hmiddle).mono ?_
    rintro declared after ⟨h, -⟩
    exact ⟨h.word hmiddle, _, _, hmiddle, h.suffix⟩
  · exact ensures_declared hstate hstate Bool.false_ne_true.elim

/-- With its semicolon a declaration is complete. -/
theorem declarationThen {second : Declaration → Parser β} {post : β → List Mention → Prop}
    (h : ∀ declared, Takes source (second declared) fun result more =>
      post result (declared.initial.elim [] Expr.written ++ more)) :
    Takes source (do
      let declared ← Parser.declaration
      Parser.expect (.mark .semicolon)
      second declared) post := by
  intro state hstate
  refine ensures_bind.mpr ((ensures_declaration hstate).mono fun declared middle ⟨hmiddle, _⟩ => ?_)
  refine ensures_bind.mpr (ensures_expect fun after hafter hkeep => ?_)
  exact (h declared).after hstate (hmiddle.close rfl (by decide) hafter hkeep)

/-! ## Statements -/

section Statements

variable {statement : Parser Statement}

theorem blockRest (hstatement : Takes source statement fun s found => found = s.gather Expr.written)
    (count : Nat) : Takes source (Parser.blockRest statement count) fun body found =>
      found = Statement.gatherAll Expr.written body := by
  induction count with
  | zero => exact fail
  | succ count ih =>
      refine (optional rfl).quietly fun _ => ite (fun _ => pure rfl) fun _ => ?_
      have hrest : ∀ first : Statement, Takes source
          (do return first :: (← Parser.blockRest statement count)) fun body more =>
            first.gather Expr.written ++ more = Statement.gatherAll Expr.written body := by
        intro first
        refine ih.bind ?_
        rintro rest _ rfl
        exact pure (by simp [Statement.gatherAll])
      refine peek fun state hstate => ensures_ite.mpr ⟨fun _ => ?_, fun _ => ?_⟩
      · exact declarationThen (fun declared => hrest (.declaration declared)) state hstate
      · refine hstatement.bind (fun first found hfirst => ?_) state hstate
        subst hfirst
        exact hrest first

/-- A block, whose scope and place are read as well. -/
theorem block (hstatement : Takes source statement fun s found => found = s.gather Expr.written) :
    Takes source (Parser.block statement) fun read found =>
      found = Statement.gatherAll Expr.written read.2.1 := by
  refine (expect rfl).quietly fun _ => last.quietly fun start => scope.quietly fun outer => ?_
  refine (enterScope outer).quietly fun inner => (moveTo inner).quietly fun _ => ?_
  refine bound.quietly fun count => (blockRest hstatement count).bind ?_
  rintro body _ rfl
  refine (moveTo outer).bind ?_
  rintro _ _ rfl
  refine last.bind ?_
  rintro finish _ rfl
  exact pure (by simp)

end Statements

theorem condition : Takes source Parser.condition Expr.Spelled := by
  refine (expect rfl).quietly fun _ => expression.bind fun value found hvalue => ?_
  refine (expect rfl).quietly fun _ => (checked _).bind ?_
  rintro _ _ ⟨-, rfl⟩
  exact pure (by simpa using hvalue)

theorem returnedValue : Takes source Parser.returnedValue fun value found =>
    found = value.elim [] Expr.written := by
  refine get.quietly fun state => (optional rfl).quietly fun _ => ite (fun _ => ?_) fun _ => ?_
  · refine ite (fun _ _ _ => ?_) fun _ => pure rfl
    simp [TakesFrom]
  · refine expression.bind fun value found hvalue => (expect rfl).quietly fun _ => ?_
    refine ite (fun _ _ _ => ?_) fun _ => (bindValue _ value).quietly fun _ => pure ?_
    · simp [TakesFrom]
    · simpa using hvalue.1.symm

theorem expressionStatement : Takes source Parser.expressionStatement fun s found =>
    found = s.gather Expr.written := by
  refine expression.bind fun value found hvalue => (expect rfl).quietly fun _ => ?_
  have hrest : Takes source (Pure.pure (Statement.expression value) : Parser Statement)
      fun s more => found ++ more = s.gather Expr.written :=
    pure (by simpa [Statement.gather] using hvalue.1.symm)
  refine ite (fun _ => (checked _).bind ?_) fun _ => hrest
  rintro _ _ ⟨-, rfl⟩
  exact hrest

theorem statementWithin (count : Nat) : Takes source (Parser.statementWithin count)
    fun s found => found = s.gather Expr.written := by
  induction count with
  | zero => exact fail
  | succ count ih =>
      refine peek fun state hstate => ?_
      split
      · refine (expect rfl).quietly (fun _ => last.quietly fun location => ?_) state hstate
        refine returnedValue.bind ?_
        rintro value _ rfl
        exact scope.quietly fun here => pure (by simp [Statement.gather])
      · refine (expect rfl).quietly (fun _ => last.quietly fun location => ?_) state hstate
        refine condition.bind fun condition _ hcondition => ih.bind ?_
        rintro yes _ rfl
        refine (optional rfl).quietly fun _ => ite (fun _ => ?_) fun _ => pure ?_
        · refine ih.bind ?_
          rintro no _ rfl
          exact pure (by simp [Statement.gather, hcondition.1])
        · simp [Statement.gather, hcondition.1]
      · refine (expect rfl).quietly (fun _ => last.quietly fun location => ?_) state hstate
        refine condition.bind fun condition _ hcondition => ih.bind ?_
        rintro body _ rfl
        exact pure (by simp [Statement.gather, hcondition.1])
      · refine (block ih).bind ?_ state hstate
        rintro ⟨inner, body, location⟩ _ rfl
        exact pure (by simp [Statement.gather])
      · exact expressionStatement state hstate

theorem statement : Takes source Parser.statement fun s found => found = s.gather Expr.written :=
  bound.quietly fun count => statementWithin count

/-! ## Functions -/

/-- A parameter ends with a name. -/
theorem ensures_parameter {scope : ScopeId} {state : ParseState} (hstate : Within source state) :
    Ensures (Parser.parameter scope) state fun _ after => Pending source state [] after := by
  refine ensures_bind.mpr (ensures_type fun type kind taken named _ hnamed hkeep => ?_)
  refine ensures_bind.mpr (ensures_identifier fun name last hlast hkeep' => ?_)
  refine ensures_bind.mpr (ensures_requireVariable ?_)
  have hname : .identifier name.value ∈ source := hstate.coming.subset (by rw [hnamed, hlast]; simp)
  have hsuffix : last.coming <:+ state.coming := by
    rw [hnamed, hlast]
    exact ((List.suffix_cons _ _).trans (List.suffix_append _ _)).trans (List.suffix_cons _ _)
  have hwithin : Within source last :=
    ⟨hsuffix.trans hstate.coming, by rw [hkeep', hkeep]; exact hstate.scopes⟩
  refine ensures_bind.mpr ((ensures_declare hwithin hname Bool.false_ne_true.elim).mono ?_)
  rintro symbol after ⟨-, hcoming, hscopes⟩
  exact ensures_pure.mpr (((Pending.of_eq hcoming hscopes).name hlast).type hnamed)

theorem ensures_parameters {scope : ScopeId} (count : Nat) {state : ParseState}
    (hstate : Within source state) :
    Ensures (Parser.separated (Parser.parameter scope) count) state fun _ after =>
      Pending source state [] after := by
  induction count generalizing state with
  | zero => exact ensures_fail
  | succ count ih =>
      refine ensures_bind.mpr ((ensures_parameter hstate).mono fun type middle hmiddle => ?_)
      refine ensures_bind.mpr (ensures_optional (fun between hbetween hkeep => ?_) fun _ => ?_)
      · have hwithin := (hmiddle.close rfl (by decide) hbetween hkeep).within hstate
        refine ensures_bind.mpr ((ih hwithin).mono fun rest after hafter => ensures_pure.mpr ?_)
        exact hmiddle.next rfl (by decide) hbetween hafter
      · exact ensures_pure.mpr hmiddle

/-- The rest of a function after its parameters, the last of which may end with a name. -/
theorem ensures_functionRest {result : Ty} {name : Located String} {scope : ScopeId}
    {parameters : List Ty} {start state : ParseState} (hstart : Within source start)
    (hname : .identifier name.value ∈ source) (hpending : Pending source start [] state) :
    Ensures (functionRest result name scope parameters) state fun function after =>
      ∃ found, Taken source start found after ∧
        function.symbol.name = name.value ∧ found = function.written := by
  refine ensures_bind.mpr (ensures_expect fun middle hmiddle hkeep => ?_)
  refine after ?_ hstart (hpending.close rfl (by decide) hmiddle hkeep)
  refine (reserve scope returnAddressSize).quietly fun _ => (declare hname).bind ?_
  rintro symbol _ ⟨hsymbol, rfl⟩
  refine (moveInto scope (some result)).quietly fun _ => (block statement).bind ?_
  rintro ⟨inner, body, location⟩ _ rfl
  exact (moveInto globalScope none).quietly fun _ => pure ⟨hsymbol, by simp [Function.written]⟩

/-- A function begins with a keyword. Its head is written like a call. -/
theorem ensures_function {state : ParseState} (hstate : Within source state) :
    Ensures Parser.function state fun function after =>
      Taken source state (Item.function function).written after ∧ Begins state after := by
  refine ensures_bind.mpr (ensures_type fun result kind taken named _ hnamed hkeep => ?_)
  refine ensures_bind.mpr (ensures_identifier fun name head hhead hkeep' => ?_)
  refine ensures_bind.mpr (ensures_expect fun opened hopened hkeep'' => ?_)
  have hshape : state.coming = .keyword kind :: (List.replicate taken (.mark .star) ++
      .identifier name.value :: .mark .openParen :: opened.coming) := by
    rw [hnamed, hhead, hopened]
  have hname : .identifier name.value ∈ source := hstate.coming.subset (by rw [hshape]; simp)
  have hbehind : opened.coming <:+ List.replicate taken (.mark .star) ++
      .identifier name.value :: .mark .openParen :: opened.coming :=
    ((List.suffix_cons _ _).trans (List.suffix_cons _ _)).trans (List.suffix_append _ _)
  have htaken : Taken source state [.call name.value] opened := by
    refine ⟨hshape ▸ hbehind.trans (List.suffix_cons _ _), ?_, ?_⟩
    · rw [hshape, mentions_type, mentions_call]
      rfl
    · rw [hkeep'', hkeep', hkeep]
      exact hstate.scopes
  -- The parameters and what follows them, from a state inside the source.
  have hrest : Takes source (do
      let scope ← Parser.enterScope globalScope
      let parameters ←
        if (← Parser.peek) = some (.mark .closeParen) then Pure.pure []
        else Parser.separated (Parser.parameter scope) (← Parser.bound)
      functionRest result name scope parameters) fun function found =>
        function.symbol.name = name.value ∧ found = function.written := by
    refine (enterScope globalScope).quietly fun scope => peek fun start hstart => ?_
    refine ensures_ite.mpr ⟨fun _ => ?_, fun _ => ?_⟩
    · exact ensures_functionRest hstart hname (.of_eq rfl hstart.scopes)
    · refine ensures_bind.mpr (ensures_bind.mpr (ensures_get.mpr (ensures_pure.mpr ?_)))
      refine ensures_bind.mpr ((ensures_parameters _ hstart).mono fun parameters middle hmiddle => ?_)
      exact ensures_functionRest hstart hname hmiddle
  refine (hrest opened (htaken.within hstate)).mono ?_
  rintro function after ⟨found, hfound, hsymbol, rfl⟩
  refine ⟨?_, kind, _, hshape, hfound.suffix.trans hbehind⟩
  have hwhole := htaken.trans hfound
  rwa [← hsymbol] at hwhole

/-! ## Items -/

theorem ensures_item {state : ParseState} (hstate : Within source state) :
    Ensures Parser.item state fun item after =>
      Taken source state item.written after ∧ Begins state after := by
  refine ensures_bind.mpr (ensures_get.mpr (ensures_ite.mpr ⟨fun _ => ?_, fun _ => ?_⟩))
  · exact ensures_bind.mpr ((ensures_function hstate).mono fun function after h => ensures_pure.mpr h)
  · refine ensures_bind.mpr ((ensures_declaration hstate).mono ?_)
    rintro declared middle ⟨hmiddle, word, rest, hword, hsuffix⟩
    refine ensures_bind.mpr (ensures_expect fun after hafter hkeep => ensures_pure.mpr ?_)
    exact ⟨hmiddle.close rfl (by decide) hafter hkeep, word, rest, hword,
      List.IsSuffix.trans ⟨[.mark .semicolon], hafter.symm⟩ hsuffix⟩

/-- Items take everything up to the end, each its own tokens. -/
theorem ensures_items (count : Nat) {state : ParseState} (hstate : Within source state)
    (hcount : state.coming.length ≤ count) :
    Ensures (Parser.items count) state fun items after =>
      (∃ spans, state.coming = spans.flatten ∧
        List.Forall₂ (fun span item => mentions span = item.written) spans items) ∧
      state.coming.head? ≠ some (.mark .openParen) ∧ after.scopes.ComeFrom source := by
  induction count generalizing state with
  | zero =>
      have hnone : state.coming = [] := List.eq_nil_of_length_eq_zero (by omega)
      exact ensures_pure.mpr ⟨⟨[], hnone, .nil⟩, by simp [hnone], hstate.scopes⟩
  | succ count ih =>
      refine ensures_bind.mpr (ensures_peek.mpr (ensures_ite.mpr ⟨fun hnone => ?_, fun _ => ?_⟩))
      · have hnone : state.coming = [] := by simpa using hnone
        exact ensures_pure.mpr ⟨⟨[], hnone, .nil⟩, by simp [hnone], hstate.scopes⟩
      · refine ensures_bind.mpr ((ensures_item hstate).mono ?_)
        rintro first middle ⟨htaken, word, rest, hword, hsuffix⟩
        have hlength : middle.coming.length ≤ count := by
          have hle := hsuffix.length_le
          rw [hword, List.length_cons] at hcount
          omega
        refine ensures_bind.mpr ((ih (htaken.within hstate) hlength).mono ?_)
        rintro items after ⟨⟨spans, hspans, hitems⟩, hhead, hscopes⟩
        obtain ⟨span, hspan⟩ := htaken.suffix
        refine ensures_pure.mpr ⟨⟨span :: spans, ?_, .cons ?_ hitems⟩, by simp [hword], hscopes⟩
        · rw [← hspan, hspans, List.flatten_cons]
        · have hmentions := htaken.mentions_eq
          rwa [← hspan, mentions_append span hhead, List.append_cancel_right_eq] at hmentions

theorem ensures_program {state : ParseState} (hstate : Within source state)
    (hbound : state.coming.length ≤ state.bound) :
    Ensures Parser.program state fun items after =>
      (∃ spans, state.coming = spans.flatten ∧
        List.Forall₂ (fun span item => mentions span = item.written) spans items) ∧
      after.scopes.ComeFrom source := by
  refine ensures_bind.mpr (ensures_bind.mpr (ensures_get.mpr (ensures_pure.mpr ?_)))
  refine ensures_bind.mpr ((ensures_items _ hstate hbound).mono ?_)
  rintro items after ⟨hspans, -, hscopes⟩
  refine ensures_bind.mpr (ensures_get.mpr ?_)
  split
  · exact ensures_ite.mpr ⟨fun _ => ensures_pure.mpr ⟨hspans, hscopes⟩, fun _ => ensures_fail⟩
  · exact ensures_fail

end Takes

end AccumulatorC.Parser

namespace AccumulatorC

/-- A program that is read is the tokens of its items, one after the other, and the calls and string
literals in them are those of the items. -/
theorem Program.ofTokens_written {tokens : List (Located Token)} {parsed : Parsed}
    (h : Program.ofTokens tokens = .ok parsed) :
    (∃ spans, tokens.map (·.value) = spans.flatten ∧
      List.Forall₂ (fun span item => mentions span = item.written) spans parsed.program.items) ∧
    parsed.program.scopes.ComeFrom (tokens.map (·.value)) := by
  simp only [Program.ofTokens] at h
  split at h
  next list state hrun =>
    cases h
    have hstart : ∀ last : Location, Parser.Within (tokens.map (·.value))
        ⟨tokens, tokens.length, last, .initial, globalScope, none, []⟩ := fun _ =>
      ⟨List.suffix_rfl, Scopes.ComeFrom.initial⟩
    have hread := Parser.Takes.ensures_program (hstart _) (by simp [ParseState.coming]) list state hrun
    exact hread
  next => cases h

end AccumulatorC
