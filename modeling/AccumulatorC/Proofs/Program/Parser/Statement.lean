import AccumulatorC.Program.Parser.Statement
import AccumulatorC.Proofs.Program.Parser.Expression

/-!
# Statements that are read are well-formed

Blocks enter scopes and declarations fill them. A statement leaves the scopes from before it
as they are, a declaration adds to the innermost one, and both keep the table well-formed, so
that what was read stays well-formed while more is read.
-/

namespace AccumulatorC.Parser

/-- Settings in which statements are read: the scopes are well-formed and the innermost one is
local. -/
structure Setting.Local (given : Setting) : Prop where
  wellFormed : given.scopes.WellFormed
  known : given.scope < given.scopes.list.length
  inner : given.scope ≠ globalScope

/-- Reading has added to the scopes, and to the symbols of one of them. -/
structure Setting.Advances (before after : Setting) (current : ScopeId) : Prop where
  wellFormed : after.scopes.WellFormed
  grows : before.scopes.Grows after.scopes current
  scope : after.scope = before.scope
  result : after.result = before.result

/-- A statement is well-formed in the innermost scope of a setting. -/
def Setting.Reads (given : Setting) (statement : Statement) : Prop :=
  statement.WellFormed given.scopes (given.result.getD .void) given.scope

namespace Setting.Advances

variable {before middle after : Setting} {current : ScopeId}

theorem refl (h : before.scopes.WellFormed) : before.Advances before current :=
  ⟨h, .refl _ _, rfl, rfl⟩

/-- Reading on adds to what was added before. -/
theorem trans (h : before.Advances middle current) (h' : middle.Advances after current) :
    before.Advances after current :=
  ⟨h'.wellFormed, h.grows.trans h'.grows, h'.scope.trans h.scope, h'.result.trans h.result⟩

theorem keepsLocal (h : before.Advances after current) (hlocal : before.Local) : after.Local where
  wellFormed := h.wellFormed
  known := by
    rw [h.scope]
    exact Nat.lt_of_lt_of_le hlocal.known h.grows.length_le
  inner := by
    rw [h.scope]
    exact hlocal.inner

/-- Well-formed expressions stay so while more is declared. -/
theorem expr (h : before.Advances after current) (hlocal : before.Local) {e : Expr}
    (he : e.WellFormed before.scopes before.scope) : e.WellFormed after.scopes after.scope := by
  rw [h.scope]
  exact he.grows hlocal.wellFormed h.grows hlocal.known

theorem reads (h : before.Advances after current) (hlocal : before.Local) {statement : Statement}
    (hreads : before.Reads statement) : after.Reads statement := by
  unfold Setting.Reads
  rw [h.scope, h.result]
  exact hreads.grows hlocal.wellFormed h.grows hlocal.known

end Setting.Advances

/-! ## Declarations -/

/-- An initial value of something of a type: it can be stored there, and in the global scope it can
be found when the program is compiled. -/
structure Setting.Initializes (given : Setting) (type : Ty) (value : Expr) : Prop where
  wellFormed : value.WellFormed given.scopes given.scope
  accepts : type.Accepts value.type
  isInitializer : given.scope = globalScope → value.isInitializer = true

/-- What a declaration gives: a symbol of the innermost scope, and a value that can be stored in
it and is read before the symbol is declared. -/
def Declares (given : Setting) (declared : Declaration) (after : Setting) : Prop :=
  ∃ (name : Located String) (type : Ty) (external : Bool) (scopes : Scopes),
    type.isFunction = false ∧ (external = false → type.isScalar = true) ∧
    given.scopes.declare given.scope name.value name.location type external =
      .ok (declared.symbol, scopes) ∧
    after = { given with scopes } ∧
    ∀ value, declared.initial = some value → given.Initializes type value

namespace Yields

theorem initialValue {given : Setting} (hwf : given.scopes.WellFormed) (external : Bool) (type : Ty)
    (name : Located String) :
    Yields given (Parser.initialValue external type name) (given.Initializes type) := by
  refine (expression hwf).bind fun value hvalue => ?_
  have hrest : Yields given (do
      Parser.bindValue type value
      if (← Parser.scope) = globalScope ∧ ¬ value.isInitializer then
        Parser.failAt (.notConstant name.value) value.location
      return value) (given.Initializes type) := by
    refine (bindValue type value).bind fun _ ⟨warnings, hwarnings⟩ => scope.bind fun here hhere => ?_
    refine ite (fun _ => failAtThen) fun hconstant => ?_
    refine pure ⟨hvalue, Expr.bindValue_accepts hwarnings, fun hglobal => ?_⟩
    subst hhere
    simpa [hglobal] using hconstant
  exact ite (fun _ => failThen) fun _ => hrest

theorem condition {given : Setting} (hwf : given.scopes.WellFormed) :
    Yields given Parser.condition fun value =>
      value.WellFormed given.scopes given.scope ∧ value.type.isVoid = false := by
  refine (expect _).bind fun _ _ => (expression hwf).bind fun value hvalue => ?_
  refine (expect _).bind fun _ _ => (checked _).bind fun _ hrequired => pure ⟨hvalue, ?_⟩
  exact Expr.requireValue_eq_ok.mp hrequired

end Yields

theorem Leads.declaration {given : Setting} (hwf : given.scopes.WellFormed) :
    Leads given Parser.declaration (Declares given) := by
  refine (Yields.optional _).then fun external _ => Yields.type.then fun type hkind => ?_
  refine Yields.identifier.then fun name _ => ?_
  -- Both ends of the check for a value continue in the same way.
  have hrest : (external = false → type.isVoid = false) → Leads given (do
      let initial ←
        if ← Parser.optional (.mark .assign) then
          some <$> Parser.initialValue external type name
        else Pure.pure none
      return ⟨← Parser.declare (← Parser.scope) name type external, initial⟩)
      (Declares given) := by
    intro hvalue
    have hscalar : external = false → type.isScalar = true := fun hexternal =>
      Ty.isScalar_of_not hkind (hvalue hexternal)
    have hdeclare : ∀ initial : Option Expr,
        (∀ value, initial = some value → given.Initializes type value) →
        Leads given (do
          return (⟨← Parser.declare (← Parser.scope) name type external, initial⟩ : Declaration))
          (Declares given) := by
      intro initial hinitial
      refine Yields.scope.then fun here hhere => (Leads.declare here name type external).bind ?_
      rintro symbol after ⟨scopes, hdeclared, hafter⟩
      subst hhere
      exact pure ⟨name, type, external, scopes, hkind, hscalar, hdeclared, hafter, hinitial⟩
    refine (Yields.optional _).then fun _ _ => ite (fun _ => ?_) fun _ => ?_
    · have hinitial : Yields given (some <$> Parser.initialValue external type name)
          fun initial => ∀ value, initial = some value → given.Initializes type value := by
        refine Yields.map ((Yields.initialValue hwf external type name).mono ?_)
        rintro value hvalue _ ⟨⟩
        exact hvalue
      exact hinitial.then hdeclare
    · exact hdeclare none (by simp)
  refine ite (fun _ => ?_) fun hexternal => hrest fun h => absurd h (by simpa using hexternal)
  exact (Yields.requireVariable type name).then fun _ hvoid => hrest fun _ => hvoid

/-- What a declaration does to a setting: its symbol is added to the innermost scope. -/
theorem Declares.advances {given after : Setting} {declared : Declaration}
    (hwf : given.scopes.WellFormed) (h : Declares given declared after) :
    given.Advances after given.scope := by
  obtain ⟨name, type, external, scopes, hkind, hscalar, hdeclare, rfl, -⟩ := h
  refine ⟨?_, Scopes.grows_declare hdeclare, rfl, rfl⟩
  exact hwf.declare (fun _ => hkind) (fun hexternal _ => hscalar hexternal) hdeclare

theorem Declares.reads {given after : Setting} {declared : Declaration} (hlocal : given.Local)
    (h : Declares given declared after) : after.Reads (.declaration declared) := by
  have hadvances := h.advances hlocal.wellFormed
  obtain ⟨name, type, external, scopes, hkind, hscalar, hdeclare, rfl, hinitial⟩ := h
  obtain ⟨scope, storage, frame, -, -, -, hsymbol, -⟩ := Scopes.declare_eq_ok hdeclare
  have hown : declared.symbol.scope = given.scope := by rw [hsymbol]
  have htype : declared.symbol.type = type := by rw [hsymbol]
  refine .declaration hown (Scopes.visible_of_declare hdeclare) fun value hvalue => ?_
  rw [htype]
  exact ⟨hadvances.expr hlocal (hinitial value hvalue).wellFormed, (hinitial value hvalue).accepts⟩

/-! ## Statements and blocks -/

/-- What a parser of statements promises: it only adds scopes, and the statement is well-formed
in the scopes after it. -/
def ReadsStatement (parser : Parser Statement) : Prop :=
  ∀ given : Setting, given.Local → Leads given parser fun statement after =>
    (∀ current, given.Advances after current) ∧ after.Reads statement

namespace Leads

theorem blockRest {statement : Parser Statement} (hstatement : ReadsStatement statement)
    (count : Nat) {given : Setting} (hlocal : given.Local) :
    Leads given (Parser.blockRest statement count) fun body after =>
      given.Advances after given.scope ∧ ∀ s ∈ body, after.Reads s := by
  induction count generalizing given with
  | zero => exact fail
  | succ count ih =>
      refine (Yields.optional _).then fun _ _ => ite (fun _ => pure ?_) fun _ => ?_
      · exact ⟨.refl hlocal.wellFormed, by simp⟩
      · refine Yields.peek.then fun token _ => ?_
        -- The first statement and the rest of the block, each in the setting it is read in.
        have hrest : ∀ first middle, given.Advances middle given.scope → middle.Reads first →
            Leads middle (do return first :: (← Parser.blockRest statement count))
              fun body after => given.Advances after given.scope ∧ ∀ s ∈ body, after.Reads s := by
          intro first middle hmiddle hfirst
          refine (ih (hmiddle.keepsLocal hlocal)).bind fun rest after ⟨hafter, hreads⟩ => pure ?_
          rw [hmiddle.scope] at hafter
          refine ⟨hmiddle.trans hafter, fun s hmem => ?_⟩
          rcases List.mem_cons.mp hmem with rfl | hmem
          · exact hafter.reads (hmiddle.keepsLocal hlocal) hfirst
          · exact hreads s hmem
        refine ite (fun _ => ?_) fun _ => ?_
        · refine (declaration hlocal.wellFormed).bind fun declared middle hdeclares => ?_
          refine (Yields.expect _).then fun _ _ => ?_
          exact hrest _ middle (hdeclares.advances hlocal.wellFormed) (hdeclares.reads hlocal)
        · refine (hstatement given hlocal).bind fun first middle hfirst => ?_
          exact hrest first middle (hfirst.1 _) hfirst.2

/-- A block stands in a new scope, and leaves the scopes from before it as they are. -/
theorem block {statement : Parser Statement} (hstatement : ReadsStatement statement)
    {given : Setting} (hwf : given.scopes.WellFormed) :
    Leads given (Parser.block statement) fun read after =>
      (∀ current, given.Advances after current) ∧
      (∃ table, after.scopes.list[read.1]? = some table ∧ table.parent = some given.scope) ∧
      ∀ s ∈ read.2.1, s.WellFormed after.scopes (after.result.getD .void) read.1 := by
  refine (Yields.expect _).then fun _ _ => Yields.last.then fun start _ => ?_
  refine Yields.scope.then fun outer houter => (enterScope outer).bind ?_
  rintro inner _ ⟨scopes, henter, rfl⟩
  subst houter
  have hentered := hwf.enter henter
  obtain ⟨hknown, hinner, hscopes⟩ := Scopes.enter_eq_ok henter
  refine (moveTo inner).bind ?_
  rintro _ _ rfl
  have hlocal : Setting.Local ⟨scopes, inner, given.result⟩ := by
    refine ⟨hentered, ?_, ?_⟩
    · simp [hscopes, hinner]
    · rw [hinner]
      exact Nat.ne_of_gt (Nat.zero_lt_of_lt hknown)
  refine Yields.bound.then fun count _ => (blockRest hstatement count hlocal).bind ?_
  rintro body after ⟨hadvances, hreads⟩
  refine (moveTo given.scope).bind ?_
  rintro _ _ rfl
  refine Yields.last.then fun finish _ => pure ?_
  refine ⟨fun current => ⟨hadvances.wellFormed, ?_, rfl, hadvances.result⟩, ?_, ?_⟩
  · exact Scopes.grows_enter henter hadvances.grows current
  · have hempty : scopes.list[inner]? = some ⟨some given.scope, [], 0⟩ := by
      simp [hscopes, hinner]
    obtain ⟨symbols, frame, hafter, -⟩ := hadvances.grows.get hempty
    exact ⟨_, hafter, rfl⟩
  · intro s hmem
    have hs := hreads s hmem
    unfold Setting.Reads at hs
    rwa [hadvances.scope] at hs

end Leads

namespace Yields

variable {given : Setting}

theorem returnedValue (hwf : given.scopes.WellFormed) :
    Yields given Parser.returnedValue fun value =>
      (value = none → (given.result.getD .void).isVoid = true) ∧
      ∀ e, value = some e →
        e.WellFormed given.scopes given.scope ∧ (given.result.getD .void).Accepts e.type := by
  refine get.bind fun state hstate => ?_
  have hresult : state.result = given.result := by rw [← hstate]; rfl
  rw [hresult]
  refine (optional _).bind fun _ _ => ite (fun _ => ?_) fun _ => ?_
  · refine ite (fun _ => failThen) fun hvoid => pure ⟨fun _ => ?_, by simp⟩
    simpa using hvoid
  · refine (expression hwf).bind fun value hvalue => (expect _).bind fun _ _ => ?_
    refine ite (fun _ => failAtThen) fun _ => ?_
    refine (bindValue _ value).bind fun _ ⟨warnings, hwarnings⟩ => pure ⟨by simp, ?_⟩
    rintro e ⟨⟩
    exact ⟨hvalue, Expr.bindValue_accepts hwarnings⟩

theorem expressionStatement (hwf : given.scopes.WellFormed) :
    Yields given Parser.expressionStatement given.Reads := by
  refine (expression hwf).bind fun value hvalue => (expect _).bind fun _ _ => ?_
  refine ite (fun _ => ?_) fun hcall => pure (.expression hvalue (Or.inl (by simpa using hcall)))
  refine (checked _).bind fun _ hrequired => pure (.expression hvalue (Or.inr ?_))
  exact Expr.requireValue_eq_ok.mp hrequired

end Yields

/-- A statement that is read is well-formed in the scopes after it. -/
theorem readsStatement_statementWithin (count : Nat) : ReadsStatement (statementWithin count) := by
  induction count with
  | zero => exact fun _ _ => Leads.fail
  | succ count ih =>
      intro given hlocal
      -- Statements without parts that are statements add nothing.
      have hquiet : ∀ {parser : Parser Statement}, Yields given parser given.Reads →
          Leads given parser fun statement after =>
            (∀ current, given.Advances after current) ∧ after.Reads statement := by
        intro parser h
        refine h.leads.mono ?_
        rintro statement _ ⟨rfl, hreads⟩
        exact ⟨fun _ => .refl hlocal.wellFormed, hreads⟩
      refine Yields.peek.then fun token _ => ?_
      split
      · refine hquiet ((Yields.expect _).bind fun _ _ => Yields.last.bind fun location _ => ?_)
        refine (Yields.returnedValue hlocal.wellFormed).bind fun value hvalue => ?_
        refine Yields.scope.bind fun here hhere => Yields.pure ?_
        subst hhere
        exact .returning hvalue.1 hvalue.2
      · refine (Yields.expect _).then fun _ _ => Yields.last.then fun location _ => ?_
        refine (Yields.condition hlocal.wellFormed).then fun condition hcondition => ?_
        refine (ih given hlocal).bind fun yes middle ⟨hmiddle, hyes⟩ => ?_
        have hlocal' := (hmiddle given.scope).keepsLocal hlocal
        have hcondition' := (hmiddle given.scope).expr hlocal hcondition.1
        refine (Yields.optional _).then fun _ _ => Leads.ite (fun _ => ?_) fun _ => ?_
        · refine (ih middle hlocal').bind fun no after ⟨hafter, hno⟩ => Leads.pure ⟨?_, ?_⟩
          · exact fun current => (hmiddle current).trans (hafter current)
          · refine .branch ((hafter given.scope).expr hlocal' hcondition') hcondition.2
              ((hafter given.scope).reads hlocal' hyes) ?_
            rintro other ⟨⟩
            exact hno
        · exact Leads.pure ⟨hmiddle, .branch hcondition' hcondition.2 hyes (by simp)⟩
      · refine (Yields.expect _).then fun _ _ => Yields.last.then fun location _ => ?_
        refine (Yields.condition hlocal.wellFormed).then fun condition hcondition => ?_
        refine (ih given hlocal).bind fun body after ⟨hafter, hbody⟩ => Leads.pure ⟨hafter, ?_⟩
        exact .loop ((hafter given.scope).expr hlocal hcondition.1) hcondition.2 hbody
      · refine (Leads.block ih hlocal.wellFormed).bind ?_
        rintro ⟨inner, body, location⟩ after ⟨hafter, ⟨table, htable, hparent⟩, hbody⟩
        refine Leads.pure ⟨hafter, .block htable ?_ hbody⟩
        rw [hparent, (hafter given.scope).scope]
      · exact hquiet (Yields.expressionStatement hlocal.wellFormed)

theorem readsStatement_statement : ReadsStatement statement := fun given hlocal =>
  Yields.bound.then fun count _ => readsStatement_statementWithin count given hlocal

end AccumulatorC.Parser
