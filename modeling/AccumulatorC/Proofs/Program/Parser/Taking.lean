import AccumulatorC.Proofs.Program.Mentions
import AccumulatorC.Proofs.Program.Parser.Ensures

/-!
# Tokens that parsers take

A parser takes tokens from the front of those to come, and the calls and string literals in them are
those of what it gives. The symbols that it declares have their names from the source as well, and
the source says of which ones that they are defined elsewhere.
-/

namespace AccumulatorC

/-- The tokens to come, without their places. -/
def ParseState.coming (state : ParseState) : List Token := state.tokens.map (·.value)

/-! ## Symbols of a source -/

/-- The source declares a name as defined elsewhere. -/
def DeclaredExternal (source : List Token) (name : String) : Prop :=
  ∃ before kind stars after, kind.isType = true ∧
    source = before ++ .keyword .external :: .keyword kind ::
      (List.replicate stars (.mark .star) ++ .identifier name :: after)

theorem DeclaredExternal.mem {source : List Token} {name : String} (h : DeclaredExternal source name) :
    .identifier name ∈ source := by
  obtain ⟨before, kind, stars, after, -, rfl⟩ := h
  simp

/-- A symbol has its name from a source, and a word in front of it if it is defined elsewhere. -/
structure Symbol.ComesFrom (source : List Token) (symbol : Symbol) : Prop where
  name : .identifier symbol.name ∈ source
  external : symbol.storage = .external → DeclaredExternal source symbol.name

/-- All symbols of a table come from a source. -/
def Scopes.ComeFrom (source : List Token) (scopes : Scopes) : Prop :=
  ∀ table ∈ scopes.list, ∀ symbol ∈ table.symbols, symbol.ComesFrom source

namespace Scopes.ComeFrom

variable {source : List Token} {scopes after : Scopes}

theorem initial : Scopes.initial.ComeFrom source := by
  intro table htable symbol hsymbol
  rw [List.mem_singleton.mp htable] at hsymbol
  cases hsymbol

theorem set (h : scopes.ComeFrom source) {id : ScopeId} {table : Scope}
    (htable : ∀ symbol ∈ table.symbols, symbol.ComesFrom source) :
    (scopes.set id table).ComeFrom source := by
  intro other hother
  rcases List.mem_or_eq_of_mem_set hother with hmem | rfl
  · exact h other hmem
  · exact htable

theorem enter (h : scopes.ComeFrom source) {parent id : ScopeId}
    (henter : scopes.enter parent = .ok (id, after)) : after.ComeFrom source := by
  obtain ⟨-, -, rfl⟩ := Scopes.enter_eq_ok henter
  intro table htable symbol hsymbol
  rcases List.mem_append.mp htable with hmem | hnew
  · exact h table hmem symbol hsymbol
  · rw [List.mem_singleton.mp hnew] at hsymbol
    cases hsymbol

theorem reserve (h : scopes.ComeFrom source) {id : ScopeId} {bytes : Nat}
    (hreserve : scopes.reserve id bytes = .ok after) : after.ComeFrom source := by
  obtain ⟨scope, hscope, -, rfl⟩ := Scopes.reserve_eq_ok hreserve
  exact h.set (h scope (List.mem_of_getElem? hscope))

/-- Declaring a name of the source keeps the symbols those of the source. -/
theorem declare (h : scopes.ComeFrom source) {id : ScopeId} {name : String} {location : Location}
    {type : Ty} {external : Bool} {symbol : Symbol}
    (hdeclare : scopes.declare id name location type external = .ok (symbol, after))
    (hname : .identifier name ∈ source) (hexternal : external = true → DeclaredExternal source name) :
    after.ComeFrom source := by
  obtain ⟨scope, storage, frame, hscope, -, hallot, rfl, rfl⟩ := Scopes.declare_eq_ok hdeclare
  refine h.set (List.forall_mem_cons.mpr ⟨⟨hname, fun hstorage => hexternal ?_⟩, ?_⟩)
  · rcases Scopes.allot_eq_ok hallot with ⟨hword, -⟩ | ⟨-, -, hlabelled, -⟩ | ⟨-, -, hframed, -⟩
    · exact hword
    · exact absurd (hlabelled.symm.trans hstorage) (by simp)
    · exact absurd (hframed.symm.trans hstorage) (by simp)
  · exact h scope (List.mem_of_getElem? hscope)

end Scopes.ComeFrom

namespace Parser

variable {α β : Type} {source : List Token}

/-- A state inside a source. -/
structure Within (source : List Token) (state : ParseState) : Prop where
  coming : state.coming <:+ source
  scopes : state.scopes.ComeFrom source

/-- Between two states tokens have been taken in which there are the given calls and strings. -/
structure Taken (source : List Token) (state : ParseState) (found : List Mention)
    (after : ParseState) : Prop where
  suffix : after.coming <:+ state.coming
  mentions_eq : mentions state.coming = found ++ mentions after.coming
  scopes : after.scopes.ComeFrom source

namespace Taken

variable {state middle after : ParseState} {found more : List Mention}

theorem refl (h : state.scopes.ComeFrom source) : Taken source state [] state :=
  ⟨List.suffix_rfl, rfl, h⟩

/-- A token that mentions nothing has been taken. -/
theorem ofQuiet {token : Token} (hstate : Within source state) (hquiet : token.isQuiet = true)
    (hcoming : state.coming = token :: after.coming) (hscopes : after.scopes = state.scopes) :
    Taken source state [] after :=
  ⟨⟨[token], hcoming.symm⟩, by rw [hcoming, mentions_quiet hquiet]; rfl, hscopes ▸ hstate.scopes⟩

theorem trans (h : Taken source state found middle) (h' : Taken source middle more after) :
    Taken source state (found ++ more) after :=
  ⟨h'.suffix.trans h.suffix, by rw [h.mentions_eq, h'.mentions_eq, List.append_assoc], h'.scopes⟩

theorem within (h : Taken source state found after) (hstate : Within source state) :
    Within source after :=
  ⟨h.suffix.trans hstate.coming, h.scopes⟩

end Taken

/-- The parser takes tokens whose calls and strings, with what it gives, meet a postcondition. -/
def TakesFrom (source : List Token) (state : ParseState) (parser : Parser α)
    (post : α → List Mention → Prop) : Prop :=
  Ensures parser state fun value after => ∃ found, Taken source state found after ∧ post value found

/-- The same from every state inside a source. -/
def Takes (source : List Token) (parser : Parser α) (post : α → List Mention → Prop) : Prop :=
  ∀ state, Within source state → TakesFrom source state parser post

/-! ## Single tokens -/

section Tokens

variable {state : ParseState}

theorem ensures_peek {post : Option Token → ParseState → Prop} :
    Ensures peek state post ↔ post state.coming.head? state := by
  simp [peek, ParseState.coming]

theorem ensures_next {post : Located Token → ParseState → Prop}
    (h : ∀ token after, state.coming = token.value :: after.coming → after.scopes = state.scopes →
      post token after) : Ensures next state post := by
  simp only [next, ensures_bind, ensures_get]
  split
  next token rest htokens =>
    simp only [ensures_bind, ensures_set, ensures_pure]
    exact h token _ (by simp [ParseState.coming, htokens]) rfl
  next => exact ensures_fail

theorem ensures_optional {token : Token} {post : Bool → ParseState → Prop}
    (htaken : ∀ after, state.coming = token :: after.coming → after.scopes = state.scopes →
      post true after)
    (hleft : state.coming.head? ≠ some token → post false state) :
    Ensures (optional token) state post := by
  simp only [optional, ensures_bind, ensures_peek, ensures_ite, ensures_pure]
  refine ⟨fun hhead => ensures_next fun found after hcoming hscopes => ?_, hleft⟩
  rw [hcoming, List.head?_cons, Option.some.injEq] at hhead
  subst hhead
  exact htaken after hcoming hscopes

theorem ensures_expect {token : Token} {post : Unit → ParseState → Prop}
    (h : ∀ after, state.coming = token :: after.coming → after.scopes = state.scopes →
      post () after) : Ensures (expect token) state post := by
  simp only [expect, ensures_bind, ensures_peek]
  split
  · exact ensures_fail
  · simp only [ensures_bind, ensures_ite, ensures_fail, ensures_pure, implies_true, true_and]
    refine ensures_next fun found after hcoming hscopes hsame => ?_
    obtain rfl : found.value = token := by simpa using hsame
    exact h after hcoming hscopes

theorem ensures_identifier {post : Located String → ParseState → Prop}
    (h : ∀ name after, state.coming = .identifier name.value :: after.coming →
      after.scopes = state.scopes → post name after) : Ensures identifier state post := by
  simp only [identifier, ensures_bind]
  refine ensures_next fun token after hcoming hscopes => ?_
  split
  next name hname =>
    rw [hname] at hcoming
    exact ensures_pure.mpr (h ⟨name, token.location⟩ after hcoming hscopes)
  next => exact ensures_fail

theorem ensures_stars {count : Nat} {type : Ty} {post : Ty → ParseState → Prop}
    (h : ∀ found taken after, state.coming = List.replicate taken (.mark .star) ++ after.coming →
      after.scopes = state.scopes → post found after) : Ensures (stars count type) state post := by
  induction count generalizing state type with
  | zero => exact ensures_pure.mpr (h type 0 state rfl rfl)
  | succ count ih =>
      simp only [stars, ensures_bind, ensures_ite, ensures_pure]
      refine ensures_optional (fun middle hmiddle hkeep => ⟨fun _ => ?_, fun hno => absurd rfl hno⟩)
        fun _ => ⟨Bool.false_ne_true.elim, fun _ => h type 0 state rfl rfl⟩
      refine ih fun found taken after hafter hscopes => ?_
      refine h found (taken + 1) after ?_ (hscopes.trans hkeep)
      rw [hmiddle, hafter, List.replicate_succ, List.cons_append]

theorem ensures_type {post : Ty → ParseState → Prop}
    (h : ∀ found kind taken after, kind.isType = true →
      state.coming = .keyword kind :: (List.replicate taken (.mark .star) ++ after.coming) →
      after.scopes = state.scopes → post found after) : Ensures type state post := by
  have hrest : ∀ {kind : Keyword} {base : Ty} {middle : ParseState}, kind.isType = true →
      state.coming = .keyword kind :: middle.coming → middle.scopes = state.scopes →
      Ensures (do stars (← bound) base) middle post := by
    intro kind base middle hkind hmiddle hkeep
    simp only [bound, ensures_bind, ensures_get, ensures_pure]
    refine ensures_stars fun found taken after hafter hscopes => ?_
    exact h found kind taken after hkind (by rw [hmiddle, hafter]) (hscopes.trans hkeep)
  simp only [type, ensures_bind]
  refine ensures_next fun token middle hmiddle hkeep => ?_
  split
  next hword =>
    rw [hword] at hmiddle
    exact hrest rfl hmiddle hkeep
  next hword =>
    rw [hword] at hmiddle
    exact hrest rfl hmiddle hkeep
  next hword =>
    rw [hword] at hmiddle
    exact hrest rfl hmiddle hkeep
  next => exact ensures_fail

/-- A type mentions nothing. -/
theorem mentions_type (kind : Keyword) (taken : Nat) (rest : List Token) :
    mentions (.keyword kind :: (List.replicate taken (.mark .star) ++ rest)) = mentions rest := by
  rw [mentions_quiet rfl]
  induction taken with
  | zero => rfl
  | succ taken ih => rw [List.replicate_succ, List.cons_append, mentions_quiet rfl, ih]

end Tokens

/-! ## Parsers one after the other -/

namespace Takes

variable {state : ParseState} {parser : Parser α} {post other : α → List Mention → Prop}

theorem mono (h : Takes source parser post)
    (himp : ∀ value found, post value found → other value found) : Takes source parser other :=
  fun state hstate => (h state hstate).mono fun value _ ⟨found, htaken, hpost⟩ =>
    ⟨found, htaken, himp value found hpost⟩

theorem pure {value : α} (h : post value []) : Takes source (Pure.pure value) post :=
  fun _ hstate => ensures_pure.mpr ⟨[], .refl hstate.scopes, h⟩

theorem fail {cause : ParseError} : Takes source (Parser.fail cause : Parser α) post :=
  fun _ _ => ensures_fail

theorem failAt {cause : ParseError} {location : Location} :
    Takes source (Parser.failAt cause location : Parser α) post := fun _ _ => ensures_failAt

/-- A parser goes on after tokens have been taken. -/
theorem after {middle : ParseState} {found : List Mention}
    (h : Takes source parser fun value more => post value (found ++ more))
    (hstate : Within source state) (htaken : Taken source state found middle) :
    Ensures parser middle fun value after =>
      ∃ whole, Taken source state whole after ∧ post value whole :=
  (h middle (htaken.within hstate)).mono fun _ _ ⟨more, hmore, hpost⟩ =>
    ⟨found ++ more, htaken.trans hmore, hpost⟩

theorem bind {second : α → Parser β} {last : β → List Mention → Prop} (h : Takes source parser post)
    (hsecond : ∀ value found, post value found →
      Takes source (second value) fun result more => last result (found ++ more)) :
    Takes source (parser >>= second) last := fun _ hstate =>
  ensures_bind.mpr <| (h _ hstate).mono fun value _ ⟨found, htaken, hpost⟩ =>
    (hsecond value found hpost).after hstate htaken

theorem ite {c : Prop} [Decidable c] {yes no : Parser α} (hyes : c → Takes source yes post)
    (hno : ¬ c → Takes source no post) : Takes source (if c then yes else no) post := by
  split
  next hc => exact hyes hc
  next hc => exact hno hc

/-- A parser that takes nothing comes before. -/
theorem quietly {second : α → Parser β} {last : β → List Mention → Prop}
    (h : Takes source parser fun _ found => found = [])
    (hsecond : ∀ value, Takes source (second value) last) :
    Takes source (parser >>= second) last :=
  h.bind fun value _ hnone => hnone ▸ hsecond value

theorem get : Takes source MonadState.get fun _ found => found = [] :=
  fun _ hstate => ensures_get.mpr ⟨[], .refl hstate.scopes, rfl⟩

theorem last : Takes source Parser.last fun _ found => found = [] :=
  get.quietly fun _ => pure rfl

theorem scope : Takes source Parser.scope fun _ found => found = [] :=
  get.quietly fun _ => pure rfl

theorem bound : Takes source Parser.bound fun _ found => found = [] :=
  get.quietly fun _ => pure rfl

theorem peekLocation : Takes source Parser.peekLocation fun _ found => found = [] :=
  get.quietly fun _ => pure rfl

/-- The token to come is known to what follows. -/
theorem peek {next : Option Token → Parser α}
    (h : ∀ state, Within source state → TakesFrom source state (next state.coming.head?) post) :
    Takes source (Parser.peek >>= next) post := fun state hstate =>
  ensures_bind.mpr (ensures_peek.mpr (h state hstate))

/-- The token to come is taken, and mentions nothing. -/
theorem nextFrom {second : Located Token → Parser α} {token : Token}
    (hstate : Within source state) (hhead : state.coming.head? = some token)
    (hquiet : token.isQuiet = true) (h : ∀ taken, Takes source (second taken) post) :
    TakesFrom source state (Parser.next >>= second) post := by
  refine ensures_bind.mpr (ensures_next fun taken middle hcoming hscopes => ?_)
  rw [hcoming, List.head?_cons, Option.some.injEq] at hhead
  subst hhead
  exact (h taken).after hstate (.ofQuiet hstate hquiet hcoming hscopes)

theorem optional {token : Token} (hquiet : token.isQuiet = true) :
    Takes source (Parser.optional token) fun _ found => found = [] := fun _ hstate =>
  ensures_optional
    (fun _ hcoming hscopes => ⟨[], .ofQuiet hstate hquiet hcoming hscopes, rfl⟩)
    fun _ => ⟨[], .refl hstate.scopes, rfl⟩

theorem expect {token : Token} (hquiet : token.isQuiet = true) :
    Takes source (Parser.expect token) fun _ found => found = [] := fun _ hstate =>
  ensures_expect fun _ hcoming hscopes => ⟨[], .ofQuiet hstate hquiet hcoming hscopes, rfl⟩

theorem warn (warnings : List (Located Conversion)) :
    Takes source (Parser.warn warnings) fun _ found => found = [] := fun _ hstate =>
  ensures_modify.mpr ⟨[], ⟨List.suffix_rfl, rfl, hstate.scopes⟩, rfl⟩

theorem checked (result : Checked α) :
    Takes source (Parser.checked result) fun value found => result = .ok value ∧ found = [] := by
  cases result with
  | ok value => exact pure ⟨rfl, rfl⟩
  | error located => exact failAt

theorem built (result : Checked (Noted α)) :
    Takes source (Parser.built result) fun value found =>
      (∃ noted, result = .ok noted ∧ noted.value = value) ∧ found = [] := by
  refine (checked result).bind ?_
  rintro noted _ ⟨hnoted, rfl⟩
  exact (warn noted.warnings).quietly fun _ => pure ⟨⟨noted, hnoted, rfl⟩, rfl⟩

/-- What is built by a rule meets what the rule promises. -/
theorem builtBy {result : Checked (Noted α)} (h : ∀ noted, result = .ok noted → post noted.value []) :
    Takes source (Parser.built result) post :=
  (built result).mono fun _ _ ⟨⟨noted, hnoted, hvalue⟩, hnone⟩ => hnone ▸ hvalue ▸ h noted hnoted

theorem bindValue (type : Ty) (value : Expr) :
    Takes source (Parser.bindValue type value) fun _ found => found = [] := by
  refine (checked _).bind ?_
  rintro warnings _ ⟨-, rfl⟩
  exact warn warnings

/-- The elements of a list one after the other. -/
theorem separated {element : Parser α} {f : α → List Mention} {good : α → Prop}
    (h : Takes source element fun value found => found = f value ∧ good value) (count : Nat) :
    Takes source (Parser.separated element count) fun list found =>
      found = list.flatMap f ∧ ∀ value ∈ list, good value := by
  induction count with
  | zero => exact fail
  | succ count ih =>
      refine h.bind ?_
      rintro first _ ⟨rfl, hfirst⟩
      refine (optional rfl).quietly fun _ => ite (fun _ => ?_) fun _ => pure ?_
      · refine ih.bind ?_
        rintro rest _ ⟨rfl, hrest⟩
        exact pure ⟨by simp, List.forall_mem_cons.mpr ⟨hfirst, hrest⟩⟩
      · exact ⟨by simp, List.forall_mem_singleton.mpr hfirst⟩

end Takes

end Parser

end AccumulatorC
