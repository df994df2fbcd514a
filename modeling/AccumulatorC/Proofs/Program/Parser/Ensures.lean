import AccumulatorC.Program.Parser.State
import AccumulatorC.Proofs.Breakdown

/-!
# What a parser ensures

A postcondition of a parser speaks about what it gives and the state after it, and holds of
every success. Most parsers take tokens only: they leave the scopes, the innermost scope and
the result of the function around as they are, and are spoken of relative to these three.
-/

namespace AccumulatorC.Parser

variable {α β : Type}

/-- Whatever the parser gives from the state meets the postcondition. -/
def Ensures (parser : Parser α) (state : ParseState) (post : α → ParseState → Prop) : Prop :=
  ∀ value after, parser state = .ok (value, after) → post value after

/-- The postcondition can be weakened. -/
theorem Ensures.mono {parser : Parser α} {state : ParseState} {post other : α → ParseState → Prop}
    (h : Ensures parser state post) (himp : ∀ value after, post value after → other value after) :
    Ensures parser state other := fun value after hrun => himp value after (h value after hrun)

section Rules

variable {state : ParseState}

@[simp] theorem ensures_pure {value : α} {post : α → ParseState → Prop} :
    Ensures (pure value) state post ↔ post value state := by
  constructor
  · intro h
    exact h value state rfl
  · rintro h value after hrun
    cases hrun
    exact h

/-- The second of two parsers goes on with what the first one gives. -/
@[simp] theorem ensures_bind {first : Parser α} {second : α → Parser β}
    {post : β → ParseState → Prop} :
    Ensures (first >>= second) state post ↔
      Ensures first state fun value after => Ensures (second value) after post := by
  have hbind : (first >>= second) state =
      match first state with
      | .error stop => .error stop
      | .ok (value, after) => second value after := by
    simp only [bind, StateT.bind, Except.bind]
    cases first state <;> rfl
  constructor
  · intro h value after hfirst rest final hsecond
    refine h rest final ?_
    rw [hbind, hfirst]
    exact hsecond
  · intro h rest final hrun
    rw [hbind] at hrun
    cases hfirst : first state with
    | error stop => simp [hfirst] at hrun
    | ok done =>
        simp only [hfirst] at hrun
        exact h done.1 done.2 hfirst rest final hrun

@[simp] theorem ensures_map {f : α → β} {parser : Parser α} {post : β → ParseState → Prop} :
    Ensures (f <$> parser) state post ↔
      Ensures parser state fun value after => post (f value) after := by
  simp only [map_eq_pure_bind, ensures_bind, ensures_pure]

@[simp] theorem ensures_ite {c : Prop} [Decidable c] {yes no : Parser α}
    {post : α → ParseState → Prop} :
    Ensures (if c then yes else no) state post ↔
      (c → Ensures yes state post) ∧ (¬ c → Ensures no state post) := by
  by_cases hc : c <;> simp [hc]

@[simp] theorem ensures_get {post : ParseState → ParseState → Prop} :
    Ensures get state post ↔ post state state := by
  constructor
  · intro h
    exact h state state rfl
  · rintro h value after hrun
    cases hrun
    exact h

@[simp] theorem ensures_set {next : ParseState} {post : PUnit → ParseState → Prop} :
    Ensures (set next) state post ↔ post ⟨⟩ next := by
  constructor
  · intro h
    exact h ⟨⟩ next rfl
  · rintro h value after hrun
    cases hrun
    exact h

@[simp] theorem ensures_modify {change : ParseState → ParseState}
    {post : PUnit → ParseState → Prop} :
    Ensures (modify change) state post ↔ post ⟨⟩ (change state) := by
  constructor
  · intro h
    exact h ⟨⟩ (change state) rfl
  · rintro h value after hrun
    cases hrun
    exact h

@[simp] theorem ensures_throw {stop : Stop (Located ParseError)}
    {post : α → ParseState → Prop} : Ensures (throw stop) state post := by
  intro value after hrun
  cases hrun

/-- A parser that fails gives nothing. -/
@[simp] theorem ensures_failAt {cause : ParseError} {location : Location}
    {post : α → ParseState → Prop} : Ensures (failAt cause location) state post := ensures_throw

@[simp] theorem ensures_fail {cause : ParseError} {post : α → ParseState → Prop} :
    Ensures (fail cause) state post := by
  simp [fail]

end Rules

/-! ## Parsers that take tokens only -/

/-- What parsers that take tokens only leave as it is. -/
structure Setting where
  scopes : Scopes
  scope : ScopeId
  result : Option Ty

/-- The setting of a state. -/
def setting (state : ParseState) : Setting := ⟨state.scopes, state.scope, state.result⟩

/-- The parser keeps the setting, and what it gives meets the postcondition. -/
def Yields (given : Setting) (parser : Parser α) (post : α → Prop) : Prop :=
  ∀ state, setting state = given → Ensures parser state fun value after =>
    setting after = given ∧ post value

namespace Yields

variable {given : Setting} {parser : Parser α} {post other : α → Prop}

theorem mono (h : Yields given parser post) (himp : ∀ value, post value → other value) :
    Yields given parser other := fun state hstate =>
  (h state hstate).mono fun value _ hafter => ⟨hafter.1, himp value hafter.2⟩

theorem pure {value : α} (h : post value) : Yields given (Pure.pure value) post :=
  fun _ hstate => ensures_pure.mpr ⟨hstate, h⟩

theorem bind {second : α → Parser β} {last : β → Prop} (h : Yields given parser post)
    (hsecond : ∀ value, post value → Yields given (second value) last) :
    Yields given (parser >>= second) last := fun state hstate =>
  ensures_bind.mpr <| (h state hstate).mono fun value after hafter =>
    hsecond value hafter.2 after hafter.1

theorem map {f : α → β} {after : β → Prop} (h : Yields given parser fun value => after (f value)) :
    Yields given (f <$> parser) after := fun state hstate =>
  ensures_map.mpr (h state hstate)

theorem ite {c : Prop} [Decidable c] {yes no : Parser α} (hyes : c → Yields given yes post)
    (hno : ¬ c → Yields given no post) : Yields given (if c then yes else no) post := by
  split
  next hc => exact hyes hc
  next hc => exact hno hc

theorem failAt {cause : ParseError} {location : Location} :
    Yields given (Parser.failAt cause location : Parser α) post := fun _ _ => ensures_failAt

theorem fail {cause : ParseError} : Yields given (Parser.fail cause : Parser α) post :=
  fun _ _ => ensures_fail

theorem failThen {cause : ParseError} {second : α → Parser β} {last : β → Prop} :
    Yields given (Parser.fail cause >>= second) last := fun state _ => by
  simp

theorem failAtThen {cause : ParseError} {location : Location} {second : α → Parser β}
    {last : β → Prop} : Yields given (Parser.failAt cause location >>= second) last :=
  fun state _ => by
  simp

theorem get : Yields given MonadState.get fun state => setting state = given := by
  intro state hstate
  exact ensures_get.mpr ⟨hstate, hstate⟩

theorem last : Yields given Parser.last fun _ => True := by
  intro state hstate
  simp [Parser.last, hstate]

theorem scope : Yields given Parser.scope (· = given.scope) := by
  intro state hstate
  subst hstate
  simp [Parser.scope, setting]

theorem bound : Yields given Parser.bound fun _ => True := by
  intro state hstate
  simp [Parser.bound, hstate]

theorem peek : Yields given Parser.peek fun _ => True := by
  intro state hstate
  simp [Parser.peek, hstate]

theorem peekLocation : Yields given Parser.peekLocation fun _ => True := by
  intro state hstate
  simp [Parser.peekLocation, hstate]

theorem next : Yields given Parser.next fun _ => True := by
  intro state hstate
  simp only [Parser.next, ensures_bind, ensures_get]
  split
  · simp only [ensures_bind, ensures_set, ensures_pure]
    exact ⟨hstate, trivial⟩
  · exact ensures_fail

theorem optional (token : Token) : Yields given (Parser.optional token) fun _ => True :=
  peek.bind fun _ _ => ite (fun _ => next.bind fun _ _ => pure trivial) fun _ => pure trivial

theorem expect (token : Token) : Yields given (Parser.expect token) fun _ => True := by
  refine peek.bind fun found _ => ?_
  cases found with
  | none => exact fail
  | some _ => exact next.bind fun _ _ => ite (fun _ => fail) fun _ => pure trivial

theorem identifier : Yields given Parser.identifier fun _ => True := by
  refine next.bind fun token _ => ?_
  split
  · exact pure trivial
  · exact fail

theorem stars (count : Nat) (type : Ty) : Yields given (Parser.stars count type)
    fun found => found.isFunction = type.isFunction ∨ found.isFunction = false := by
  induction count generalizing type with
  | zero => exact pure (Or.inl rfl)
  | succ count ih =>
      refine (optional _).bind fun _ _ => ite (fun _ => ?_) fun _ => pure (Or.inl rfl)
      exact (ih (.pointer type)).mono fun found h => Or.inr (by simpa [Ty.isFunction] using h)

/-- A type that is written is not that of a function. -/
theorem type : Yields given Parser.type (·.isFunction = false) := by
  refine next.bind fun token _ => ?_
  split
  · exact bound.bind fun count _ => (stars count _).mono fun _ h => by simpa [Ty.isFunction] using h
  · exact bound.bind fun count _ => (stars count _).mono fun _ h => by simpa [Ty.isFunction] using h
  · exact bound.bind fun count _ => (stars count _).mono fun _ h => by simpa [Ty.isFunction] using h
  · exact fail

theorem warn (warnings : List (Located Conversion)) :
    Yields given (Parser.warn warnings) fun _ => True := by
  intro state hstate
  simp only [Parser.warn, ensures_modify]
  exact ⟨hstate, trivial⟩

theorem checked (result : Checked α) : Yields given (Parser.checked result) (result = .ok ·) := by
  cases result with
  | ok value => exact pure rfl
  | error located => exact failAt

theorem built (result : Checked (Noted α)) :
    Yields given (Parser.built result) fun value =>
      ∃ noted, result = .ok noted ∧ noted.value = value :=
  (checked result).bind fun noted hnoted =>
    (warn noted.warnings).bind fun _ _ => pure ⟨noted, hnoted, rfl⟩

theorem bindValue (type : Ty) (value : Expr) :
    Yields given (Parser.bindValue type value) fun _ =>
      ∃ warnings, Checked.bindValue type value = .ok warnings :=
  (checked _).bind fun warnings hwarnings => (warn warnings).mono fun _ _ => ⟨warnings, hwarnings⟩

theorem requireVariable (type : Ty) (name : Located String) :
    Yields given (Parser.requireVariable type name) fun _ => type.isVoid = false := by
  refine ite (fun _ => failAt) fun hvoid => pure ?_
  simpa using hvoid

/-- Elements that all meet a postcondition make a list of such. -/
theorem separated {element : Parser α} (h : Yields given element post) (count : Nat) :
    Yields given (Parser.separated element count) fun list => ∀ value ∈ list, post value := by
  induction count with
  | zero => exact fail
  | succ count ih =>
      refine h.bind fun first hfirst => (optional _).bind fun _ _ => ite (fun _ => ?_) fun _ => ?_
      · refine ih.bind fun rest hrest => pure fun value hmem => ?_
        rcases List.mem_cons.mp hmem with rfl | hmem
        · exact hfirst
        · exact hrest value hmem
      · exact pure fun value hmem => by rw [List.mem_singleton.mp hmem]; exact hfirst

end Yields

/-! ## Parsers that change the setting -/

/-- What the parser gives and the setting after it meet the postcondition. -/
def Leads (given : Setting) (parser : Parser α) (post : α → Setting → Prop) : Prop :=
  ∀ state, setting state = given → Ensures parser state fun value after =>
    post value (setting after)

theorem Yields.leads {given : Setting} {parser : Parser α} {post : α → Prop}
    (h : Yields given parser post) :
    Leads given parser fun value after => after = given ∧ post value := h

/-- A parser that takes tokens only, followed by one that changes the setting. -/
theorem Yields.then {given : Setting} {parser : Parser α} {post : α → Prop}
    {second : α → Parser β} {last : β → Setting → Prop} (h : Yields given parser post)
    (hsecond : ∀ value, post value → Leads given (second value) last) :
    Leads given (parser >>= second) last := fun state hstate =>
  ensures_bind.mpr <| (h state hstate).mono fun value after hafter =>
    hsecond value hafter.2 after hafter.1

namespace Leads

variable {given : Setting} {parser : Parser α} {post other : α → Setting → Prop}

theorem mono (h : Leads given parser post) (himp : ∀ value after, post value after →
    other value after) : Leads given parser other := fun state hstate =>
  (h state hstate).mono fun value after => himp value (setting after)

theorem pure {value : α} (h : post value given) : Leads given (Pure.pure value) post :=
  fun _ hstate => ensures_pure.mpr (hstate ▸ h)

/-- The second of two parsers goes on in the setting that the first one leads to. -/
theorem bind {second : α → Parser β} {last : β → Setting → Prop} (h : Leads given parser post)
    (hsecond : ∀ value middle, post value middle → Leads middle (second value) last) :
    Leads given (parser >>= second) last := fun state hstate =>
  ensures_bind.mpr <| (h state hstate).mono fun value after hafter =>
    hsecond value (setting after) hafter after rfl

theorem ite {c : Prop} [Decidable c] {yes no : Parser α} (hyes : c → Leads given yes post)
    (hno : ¬ c → Leads given no post) : Leads given (if c then yes else no) post := by
  split
  next hc => exact hyes hc
  next hc => exact hno hc

theorem fail {cause : ParseError} : Leads given (Parser.fail cause : Parser α) post :=
  fun _ _ => ensures_fail

theorem moveTo (scope : ScopeId) :
    Leads given (modify fun state => { state with scope }) fun _ after =>
      after = { given with scope } := by
  rintro state rfl
  exact ensures_modify.mpr rfl

theorem moveInto (scope : ScopeId) (result : Option Ty) :
    Leads given (modify fun state => { state with scope, result }) fun _ after =>
      after = { given with scope, result } := by
  rintro state rfl
  exact ensures_modify.mpr rfl

/-- A change of the scopes leaves the rest of the setting. -/
theorem withScopes {change : Scopes → Except Breakdown (α × Scopes)} :
    Leads given (Parser.withScopes change) fun value after =>
      ∃ scopes, change given.scopes = .ok (value, scopes) ∧ after = { given with scopes } := by
  intro state hstate
  subst hstate
  simp only [Parser.withScopes, ensures_bind, ensures_get]
  split
  next value scopes hchange =>
    simp only [ensures_bind, ensures_set, ensures_pure]
    exact ⟨scopes, hchange, rfl⟩
  next => exact ensures_throw

theorem enterScope (parent : ScopeId) :
    Leads given (Parser.enterScope parent) fun id after =>
      ∃ scopes, given.scopes.enter parent = .ok (id, scopes) ∧ after = { given with scopes } :=
  withScopes

theorem reserve (scope : ScopeId) (bytes : Nat) :
    Leads given (Parser.reserve scope bytes) fun _ after =>
      ∃ scopes, given.scopes.reserve scope bytes = .ok scopes ∧ after = { given with scopes } := by
  refine withScopes.mono fun _ after hafter => ?_
  obtain ⟨scopes, hreserve, hset⟩ := hafter
  rw [map_eq_ok] at hreserve
  obtain ⟨found, hfound, hsame⟩ := hreserve
  cases hsame
  exact ⟨_, hfound, hset⟩

/-- A declaration leads to the scopes with its symbol. -/
theorem declare (scope : ScopeId) (name : Located String) (type : Ty) (external : Bool) :
    Leads given (Parser.declare scope name type external) fun symbol after =>
      ∃ scopes, given.scopes.declare scope name.value name.location type external =
        .ok (symbol, scopes) ∧ after = { given with scopes } := by
  intro state hstate
  subst hstate
  simp only [Parser.declare, ensures_bind, ensures_get]
  split
  next symbol scopes hdeclare =>
    simp only [ensures_bind, ensures_set, ensures_pure]
    exact ⟨scopes, hdeclare, rfl⟩
  next => exact ensures_throw

end Leads

end AccumulatorC.Parser
