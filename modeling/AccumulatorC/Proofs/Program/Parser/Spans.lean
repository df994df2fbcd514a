import AccumulatorC.Proofs.Program.Parser.Completeness
import AccumulatorC.Proofs.Program.Spans
import AccumulatorC.Proofs.Program.Parser.Unit

/-!
# Places while reading

Whatever is read, and every error and warning on the way, has the place of a token or of an
expression. The tokens between the beginning of an expression and the one that has just been taken
spell this expression; so it is enough to count the tokens that have been taken.
-/

namespace AccumulatorC.Parser

variable {α β : Type} {whole : List (Located Token)} {begun before middle taken level : Nat}

/-! ## Tokens that have been taken -/

/-- The tokens from one number of tokens taken to another one. -/
def part (whole : List (Located Token)) (before taken : Nat) : List (Located Token) :=
  (whole.drop before).take (taken - before)

/-- The same without places. -/
def between (whole : List (Located Token)) (before taken : Nat) : List Token :=
  (part whole before taken).map (·.value)

/-- A token comes next. -/
def Comes (whole : List (Located Token)) (before : Nat) (token : Token) : Prop :=
  whole[before]?.map (·.value) = some token

/-- Tokens taken one after the other were taken together. -/
theorem between_append (hle : begun ≤ before) (hmore : before ≤ taken) :
    between whole begun before ++ between whole before taken = between whole begun taken := by
  have hdrop : whole.drop before = (whole.drop begun).drop (before - begun) := by
    rw [List.drop_drop, Nat.add_sub_cancel' hle]
  have hlength : taken - begun = (before - begun) + (taken - before) := by omega
  rw [between, between, between, part, part, part, ← List.map_append, hdrop, ← List.take_add,
    ← hlength]

/-- The token that comes next is the one that is taken. -/
theorem between_succ {token : Token} (h : Comes whole before token) :
    between whole before (before + 1) = [token] := by
  obtain ⟨found, hfound, rfl⟩ := Option.map_eq_some_iff.mp h
  rw [between, part, Nat.add_sub_cancel_left, List.take_one, List.head?_drop, hfound]
  rfl

/-- The tokens taken since some number of them spell a term up to a level. -/
def Spells (whole : List (Located Token)) (level begun taken : Nat) : Prop :=
  ∃ t : Term, t.Spelling level (between whole begun taken)

namespace Spells

theorem lt (h : Spells whole level before taken) : before < taken := by
  obtain ⟨t, hspelling⟩ := h
  have hlength := hspelling.length_pos
  rw [between, part, List.length_map, List.length_take] at hlength
  omega

theorem looser (h : Spells whole level before taken) (hlevel : level < loosestLevel) :
    Spells whole (level + 1) before taken := by
  obtain ⟨t, hspelling⟩ := h
  exact ⟨t, .looser hlevel hspelling⟩

theorem name {text : String} (h : Comes whole before (.identifier text)) :
    Spells whole 0 before (before + 1) := ⟨.name text, between_succ h ▸ .name text⟩

theorem parenthesized (hopen : Comes whole before (.mark .openParen))
    (h : Spells whole loosestLevel (before + 1) taken)
    (hclose : Comes whole taken (.mark .closeParen)) : Spells whole 0 before (taken + 1) := by
  obtain ⟨t, hspelling⟩ := h
  have hlt := lt ⟨t, hspelling⟩
  refine ⟨t, ?_⟩
  rw [← between_append (Nat.le_succ before) (Nat.le_succ_of_le (Nat.le_of_lt hlt)),
    ← between_append (Nat.le_of_lt hlt) (Nat.le_succ taken), between_succ hopen,
    between_succ hclose]
  exact .parenthesized hspelling

theorem trailing (step : Step) (h : Spells whole trailingLevel begun before)
    (hstep : Comes whole before (.mark step.mark)) :
    Spells whole trailingLevel begun (before + 1) := by
  have hlt := h.lt
  obtain ⟨t, hspelling⟩ := h
  refine ⟨.trailing step t, ?_⟩
  rw [← between_append (Nat.le_of_lt hlt) (Nat.le_succ before), between_succ hstep]
  exact .trailing step hspelling

theorem leading (op : UnaryOp) (hop : Comes whole before (.mark op.mark))
    (h : Spells whole leadingLevel (before + 1) taken) :
    Spells whole leadingLevel before taken := by
  have hlt := h.lt
  obtain ⟨t, hspelling⟩ := h
  refine ⟨.leading op t, ?_⟩
  rw [← between_append (Nat.le_succ before) (Nat.le_of_lt hlt), between_succ hop]
  exact .leading op hspelling

/-- The tokens of two operands and of what stands between them. -/
theorem between_operands {token : Token} (hleft : begun < before)
    (htoken : Comes whole before token) (hright : before + 1 < taken) : between whole begun taken =
      between whole begun before ++ token :: between whole (before + 1) taken := by
  rw [← between_append (Nat.le_of_lt hleft) (by omega : before ≤ taken),
    ← between_append (Nat.le_succ before) (Nat.le_of_lt hright), between_succ htoken]
  rfl

theorem binary {tighter : Nat} (op : BinaryOp) (hlevel : op.level = tighter + 1)
    (hleft : Spells whole (tighter + 1) begun before) (hop : Comes whole before (.mark op.mark))
    (hright : Spells whole tighter (before + 1) taken) :
    Spells whole (tighter + 1) begun taken := by
  have hwhole := between_operands hleft.lt hop hright.lt
  obtain ⟨left, hleft⟩ := hleft
  obtain ⟨right, hright⟩ := hright
  refine ⟨.binary op left right, ?_⟩
  rw [hwhole, ← hlevel]
  exact .binary op hlevel (hlevel ▸ hleft) hright

theorem assign (htarget : Spells whole binaryLevel begun before)
    (hassign : Comes whole before (.mark .assign))
    (hvalue : Spells whole loosestLevel (before + 1) taken) :
    Spells whole loosestLevel begun taken := by
  have hwhole := between_operands htarget.lt hassign hvalue.lt
  obtain ⟨target, htarget⟩ := htarget
  obtain ⟨value, hvalue⟩ := hvalue
  refine ⟨.assign target value, ?_⟩
  rw [hwhole]
  exact .assign htarget hvalue

/-- A call: the name, the sign that opens the arguments, the arguments and the sign that closes
them. -/
theorem call {name : String} {parts : List (List Token)}
    (hname : Comes whole before (.identifier name))
    (hopen : Comes whole (before + 1) (.mark .openParen)) (hle : before + 2 ≤ taken)
    (harguments : between whole (before + 2) taken = Term.commaSeparated parts)
    (hparts : ∀ argument ∈ parts, ∃ t : Term, t.Spelling loosestLevel argument)
    (hclose : Comes whole taken (.mark .closeParen)) : Spells whole 0 before (taken + 1) := by
  have hterms : ∃ terms : List (Term × List Token), terms.map (·.2) = parts ∧
      ∀ term ∈ terms, term.1.Spelling loosestLevel term.2 := by
    clear harguments
    induction parts with
    | nil => exact ⟨[], rfl, fun _ hmem => nomatch hmem⟩
    | cons first rest ih =>
        obtain ⟨⟨t, hfirst⟩, hrest⟩ := List.forall_mem_cons.mp hparts
        obtain ⟨terms, hsame, hterms⟩ := ih hrest
        refine ⟨(t, first) :: terms, ?_, List.forall_mem_cons.mpr ⟨hfirst, hterms⟩⟩
        rw [List.map_cons, hsame]
  obtain ⟨terms, rfl, hterms⟩ := hterms
  refine ⟨.call name (terms.map (·.1)), ?_⟩
  rw [← between_append (Nat.le_succ before) (by omega : before + 1 ≤ taken + 1),
    ← between_append (Nat.le_succ (before + 1)) (by omega : before + 2 ≤ taken + 1),
    ← between_append hle (Nat.le_succ taken), between_succ hname, between_succ hopen,
    between_succ hclose, harguments]
  exact .call hterms

end Spells

/-! ## Places of tokens -/

/-- The place of the token that comes after so many, if there is one. -/
def Starts (whole : List (Located Token)) (before : Nat) (start : Location) : Prop :=
  ∀ token, whole[before]? = some token → start = token.location

/-- The place of the last of so many tokens, and of the first token when there are none. -/
def Ends (whole : List (Located Token)) (taken : Nat) (stop : Location) : Prop :=
  ∃ token, whole[taken - 1]? = some token ∧ stop = token.location

theorem Ends.spansOf {stop : Location} {kind : List Token → Prop} (h : Ends whole taken stop)
    (hkind : ∀ token, kind [token]) : stop.SpansOf kind whole := by
  obtain ⟨token, htoken, rfl⟩ := h
  exact Location.spansOf_of_mem (List.mem_of_getElem? htoken) (hkind _)

theorem Ends.spans {stop : Location} (h : Ends whole taken stop) : stop.Spans whole :=
  h.spansOf fun _ => .inl rfl

theorem part_head? {token : Located Token} (hlt : before < taken)
    (h : whole[before]? = some token) : (part whole before taken).head? = some token := by
  rw [part, List.head?_take, if_neg (by omega), List.head?_drop, h]

theorem part_getLast? {token : Located Token} (hlt : before < taken)
    (h : whole[taken - 1]? = some token) : (part whole before taken).getLast? = some token := by
  obtain ⟨hlength, -⟩ := List.getElem?_eq_some_iff.mp h
  have hpart : (part whole before taken).length - 1 = taken - 1 - before := by
    rw [part, List.length_take, List.length_drop]
    omega
  rw [List.getLast?_eq_getElem?, hpart, part, List.getElem?_take_of_lt (by omega),
    List.getElem?_drop, Nat.add_sub_cancel' (by omega), h]

theorem take_append_part (hle : before ≤ taken) :
    whole.take before ++ part whole before taken ++ whole.drop taken = whole := by
  rw [part, ← List.take_add, Nat.add_sub_cancel' hle, List.take_append_drop]

/-- From the beginning of an expression to the last token taken. -/
theorem Starts.span {start stop : Location} (hstart : Starts whole begun start)
    (hspells : Spells whole level begun taken) (hstop : Ends whole taken stop) :
    (Location.span start stop).SpansTerm whole := by
  have hlt := hspells.lt
  obtain ⟨t, hspelling⟩ := hspells
  obtain ⟨last, hlast, rfl⟩ := hstop
  obtain ⟨hlength, -⟩ := List.getElem?_eq_some_iff.mp hlast
  have hfirst : whole[begun]? = some whole[begun] := List.getElem?_eq_getElem (by omega)
  rw [hstart _ hfirst]
  have hspans : (Location.span whole[begun].location last.location).SpansTerm
      (whole.take begun ++ part whole begun taken ++ whole.drop taken) :=
    .intro hspelling.isTerm (part_head? hlt hfirst) (part_getLast? hlt hlast)
  rwa [take_append_part (Nat.le_of_lt hlt)] at hspans

/-! ## Parsers that locate -/

/-- A state in the midst of tokens, so many of which have been taken. -/
structure Amid (whole : List (Located Token)) (taken : Nat) (state : ParseState) : Prop where
  tokens : state.tokens = whole.drop taken
  last : Ends whole taken state.last
  warnings : AllAt (·.SpansTerm whole) state.warnings

/-- Only the tokens, the last place and the warnings matter. -/
theorem Amid.congr {state later : ParseState} (h : Amid whole taken state)
    (htokens : later.tokens = state.tokens) (hlast : later.last = state.last)
    (hwarnings : later.warnings = state.warnings) : Amid whole taken later where
  tokens := htokens.trans h.tokens
  last := hlast ▸ h.last
  warnings := hwarnings ▸ h.warnings

/-- How reading ends when so many tokens had been taken before: with a value in the midst of the
tokens, or with an error that has the place of what it is about. -/
def Arrives (whole : List (Located Token)) (before : Nat) (post : α → Nat → Prop) :
    Except (Stop (Located ParseError)) (α × ParseState) → Prop
  | .ok (value, after) => ∃ taken, before ≤ taken ∧ Amid whole taken after ∧ post value taken
  | .error (.diagnosis entry) => entry.location.SpansOf entry.value.IsAbout whole
  | .error (.breakdown _) => True

/-- From a state in the midst of tokens the parser arrives at a value that meets a postcondition,
which also speaks about the number of tokens taken. -/
def Locates (whole : List (Located Token)) (before : Nat) (parser : Parser α)
    (post : α → Nat → Prop) : Prop :=
  ∀ state, Amid whole before state → Arrives whole before post (parser state)

namespace Locates

variable {parser : Parser α} {post other : α → Nat → Prop} {second : α → Parser β}
  {last : β → Nat → Prop}

theorem pure {value : α} (h : post value before) :
    Locates whole before (Pure.pure value) post := fun _ hstate =>
  ⟨before, Nat.le_refl _, hstate, h⟩

/-- Where the first of two parsers arrives, the second one goes on. -/
theorem bind (h : Locates whole before parser post)
    (hsecond : ∀ value taken, before ≤ taken → post value taken →
      Locates whole taken (second value) last) :
    Locates whole before (parser >>= second) last := by
  intro state hstate
  have hfirst := h state hstate
  simp only [Bind.bind, StateT.bind, Except.bind]
  cases hrun : parser state with
  | error stop =>
      rw [hrun] at hfirst
      cases stop with
      | diagnosis entry => exact hfirst
      | breakdown cause => trivial
  | ok done =>
      rw [hrun] at hfirst
      obtain ⟨middle, hle, hmiddle, hpost⟩ := hfirst
      have hrest := hsecond done.1 middle hle hpost done.2 hmiddle
      simp only
      cases hend : second done.1 done.2 with
      | error stop =>
          rw [hend] at hrest
          cases stop with
          | diagnosis entry => exact hrest
          | breakdown cause => trivial
      | ok final =>
          rw [hend] at hrest
          obtain ⟨taken, hmore, hfinal, hlast⟩ := hrest
          exact ⟨taken, Nat.le_trans hle hmore, hfinal, hlast⟩

/-- The postcondition can be weakened. -/
theorem mono (h : Locates whole before parser post)
    (himp : ∀ value taken, post value taken → other value taken) :
    Locates whole before parser other := by
  rw [← bind_pure parser]
  exact h.bind fun value taken _ hpost => pure (himp value taken hpost)

theorem map {f : α → β} (h : Locates whole before parser fun value taken => last (f value) taken) :
    Locates whole before (f <$> parser) last := by
  rw [map_eq_pure_bind]
  exact h.bind fun _ _ _ hpost => pure hpost

theorem ite {c : Prop} [Decidable c] {yes no : Parser α}
    (hyes : c → Locates whole before yes post) (hno : ¬c → Locates whole before no post) :
    Locates whole before (if c then yes else no) post := by
  split
  next hc => exact hyes hc
  next hc => exact hno hc

/-- An error is reported at the tokens that it is about. -/
theorem failAt {cause : ParseError} {location : Location}
    (h : location.SpansOf cause.IsAbout whole) :
    Locates whole before (Parser.failAt cause location : Parser α) post := fun _ _ => h

theorem breakdown (cause : Breakdown) :
    Locates whole before (throw (.breakdown cause) : Parser α) post := fun _ _ => trivial

/-! ### Looking at the state -/

/-- What is done with the state that is found. -/
theorem getThen {second : ParseState → Parser β}
    (h : ∀ state, Amid whole before state → Locates whole before (second state) last) :
    Locates whole before (MonadState.get >>= second) last := fun state hstate =>
  h state hstate state hstate

theorem fail {cause : ParseError} (h : ∀ token, cause.IsAbout [token]) :
    Locates whole before (Parser.fail cause : Parser α) post :=
  getThen fun _ hstate => failAt (hstate.last.spansOf h)

theorem failAtThen {cause : ParseError} {location : Location}
    (h : location.SpansOf cause.IsAbout whole) :
    Locates whole before (Parser.failAt cause location >>= second) last := by
  have hfail : Locates whole before (Parser.failAt cause location : Parser α) fun _ _ => False :=
    failAt h
  exact hfail.bind fun _ _ _ himpossible => himpossible.elim

theorem failThen {cause : ParseError} (h : ∀ token, cause.IsAbout [token]) :
    Locates whole before (Parser.fail cause >>= second) last := by
  have hfail : Locates whole before (Parser.fail cause : Parser α) fun _ _ => False := fail h
  exact hfail.bind fun _ _ _ himpossible => himpossible.elim

theorem lastThen {second : Location → Parser β}
    (h : ∀ stop, Ends whole before stop → Locates whole before (second stop) last) :
    Locates whole before (Parser.last >>= second) last := fun state hstate =>
  h state.last hstate.last state hstate

theorem scopeThen {second : ScopeId → Parser β}
    (h : ∀ here, Locates whole before (second here) last) :
    Locates whole before (Parser.scope >>= second) last := fun state hstate =>
  h state.scope state hstate

theorem boundThen {second : Nat → Parser β}
    (h : ∀ count, Locates whole before (second count) last) :
    Locates whole before (Parser.bound >>= second) last := fun state hstate =>
  h state.bound state hstate

theorem peekThen {second : Option Token → Parser β}
    (h : Locates whole before (second (whole[before]?.map (·.value))) last) :
    Locates whole before (Parser.peek >>= second) last := by
  intro state hstate
  have hcoming : state.tokens.head?.map (·.value) = whole[before]?.map (·.value) := by
    rw [hstate.tokens, List.head?_drop]
  rw [← hcoming] at h
  exact h state hstate

theorem Amid.starts {state : ParseState} (h : Amid whole before state) :
    Starts whole before (state.tokens.head?.elim state.last (·.location)) := by
  intro token htoken
  rw [h.tokens, List.head?_drop, htoken]
  rfl

theorem startThen {second : Location → Parser β}
    (h : ∀ start, Starts whole before start → Locates whole before (second start) last) :
    Locates whole before (Parser.peekLocation >>= second) last := fun state hstate =>
  h _ (Amid.starts hstate) state hstate

/-! ### Taking tokens -/

/-- A state in which more tokens have been taken is set. -/
theorem setThen {later : ParseState} {second : PUnit → Parser β} (hlater : Amid whole taken later)
    (hle : before ≤ taken) (h : Locates whole taken (second ⟨⟩) last) :
    Locates whole before (MonadStateOf.set later >>= second) last := by
  have hset : Locates whole before (MonadStateOf.set later) fun _ found => found = taken :=
    fun _ _ => ⟨taken, hle, hlater, rfl⟩
  apply hset.bind
  rintro _ _ _ rfl
  exact h

theorem next : Locates whole before Parser.next fun token taken =>
    taken = before + 1 ∧ whole[before]? = some token := by
  apply getThen
  intro state hstate
  split
  next token rest htokens =>
    have htoken : whole[before]? = some token := by
      rw [← List.head?_drop, ← hstate.tokens, htokens]
      rfl
    have hrest : rest = whole.drop (before + 1) := by
      rw [← List.tail_drop, ← hstate.tokens, htokens]
      rfl
    have hlater : Amid whole (before + 1) { state with tokens := rest, last := token.location } :=
      ⟨hrest, ⟨token, htoken, rfl⟩, hstate.warnings⟩
    exact setThen hlater (Nat.le_succ before) (pure ⟨rfl, htoken⟩)
  next => exact fail fun _ => rfl

theorem optional (token : Token) :
    Locates whole before (Parser.optional token) fun found taken =>
      if found then taken = before + 1 ∧ Comes whole before token else taken = before := by
  apply peekThen
  apply ite
  · exact fun hcomes => next.bind fun _ _ _ htaken => pure ⟨htaken.1, hcomes⟩
  · exact fun _ => pure rfl

theorem expect (token : Token) :
    Locates whole before (Parser.expect token) fun _ taken =>
      taken = before + 1 ∧ Comes whole before token := by
  apply peekThen
  cases whole[before]?.map (·.value) with
  | none => exact fail fun _ => rfl
  | some _ =>
      apply next.bind
      rintro found _ - ⟨rfl, hfound⟩
      apply ite
      · -- The token that was found is the last one taken.
        refine fun _ => getThen fun state hstate => failAt ?_
        obtain ⟨token, htoken, hlast⟩ := hstate.last
        rw [Nat.add_sub_cancel, hfound, Option.some.injEq] at htoken
        rw [hlast, ← htoken]
        exact Location.spansOf_of_mem (List.mem_of_getElem? hfound) rfl
      · intro hsame
        refine pure ⟨rfl, ?_⟩
        rw [Comes, hfound, Option.map_some, not_not.mp hsame]

/-- A location is the place of a certain name. -/
abbrev Names (whole : List (Located Token)) (name : String) (location : Location) : Prop :=
  location.SpansOf (· = [.identifier name]) whole

theorem Names.spans {name : String} {location : Location} (h : Names whole name location) :
    location.Spans whole := h.mono fun _ htokens => .inl (congrArg List.length htokens)

theorem Names.spansTerm {name : String} {location : Location} (h : Names whole name location) :
    location.SpansTerm whole :=
  h.mono fun _ htokens => htokens ▸ (Term.Spelling.name name).isTerm

theorem identifier : Locates whole before Parser.identifier fun name _ =>
    Names whole name.value name.location := by
  apply next.bind
  rintro ⟨token, location⟩ taken - ⟨-, htoken⟩
  cases token with
  | identifier name => exact pure (Location.spansOf_of_mem (List.mem_of_getElem? htoken) rfl)
  | _ => exact fail fun _ => rfl

theorem stars (count : Nat) (type : Ty) :
    Locates whole before (Parser.stars count type) fun _ _ => True := by
  induction count generalizing before type with
  | zero => exact pure trivial
  | succ count ih => exact (optional _).bind fun _ _ _ _ => ite (fun _ => ih _) fun _ => pure trivial

theorem type : Locates whole before Parser.type fun _ _ => True := by
  apply next.bind
  intro token taken _ _
  split
  · exact boundThen fun count => stars count _
  · exact boundThen fun count => stars count _
  · exact boundThen fun count => stars count _
  · exact fail fun _ => rfl

/-! ### Rules and scopes -/

theorem warn {warnings : List (Located Conversion)} (h : AllAt (·.SpansTerm whole) warnings) :
    Locates whole before (Parser.warn warnings) fun _ taken => taken = before := fun _ hstate =>
  ⟨before, Nat.le_refl _, ⟨hstate.tokens, hstate.last, hstate.warnings.append h⟩, rfl⟩

theorem checked {result : Checked α} {post : α → Prop} (h : result.Within (·.SpansTerm whole) post) :
    Locates whole before (Parser.checked result) fun value taken =>
      taken = before ∧ post value := by
  cases result with
  | ok value => exact pure ⟨rfl, h⟩
  | error found => exact failAt (h.2 ▸ h.1)

theorem built {result : Checked (Noted Expr)}
    (h : result.Within (·.SpansTerm whole) (Noted.Lies (·.SpansTerm whole))) :
    Locates whole before (Parser.built result) fun e taken =>
      taken = before ∧ e.Lies (·.SpansTerm whole) := by
  apply (checked h).bind
  rintro noted _ - ⟨rfl, hnoted⟩
  apply (warn hnoted.warnings).bind
  rintro _ _ - rfl
  exact pure ⟨rfl, hnoted.value⟩

theorem bindValue (type : Ty) {value : Expr} (h : value.Lies (·.SpansTerm whole)) :
    Locates whole before (Parser.bindValue type value) fun _ _ => True :=
  (checked (Checked.bindValue_within type h)).bind fun _ _ _ hwarnings =>
    (warn hwarnings.2).mono fun _ _ _ => trivial

theorem requireVariable (type : Ty) {name : Located String}
    (h : Names whole name.value name.location) :
    Locates whole before (Parser.requireVariable type name) fun _ _ => True :=
  ite (fun _ => failAt h) fun _ => pure trivial

/-- A change that leaves the tokens, the last place and the warnings as they are. -/
theorem modifyThen {change : ParseState → ParseState} {second : PUnit → Parser β}
    (hchange : ∀ state, Amid whole before state → Amid whole before (change state))
    (h : Locates whole before (second ⟨⟩) last) :
    Locates whole before (modify change >>= second) last := fun state hstate =>
  h (change state) (hchange state hstate)

theorem withScopes (change : Scopes → Except Breakdown (α × Scopes)) :
    Locates whole before (Parser.withScopes change) fun _ _ => True := by
  apply getThen
  intro state hstate
  split
  · exact setThen (hstate.congr rfl rfl rfl) (Nat.le_refl _) (pure trivial)
  · exact breakdown _

theorem declare (scope : ScopeId) {name : Located String} (type : Ty) (external : Bool)
    (h : Names whole name.value name.location) :
    Locates whole before (Parser.declare scope name type external) fun symbol _ =>
      symbol.location.Spans whole := by
  apply getThen
  intro state hstate
  split
  next symbol scopes hdeclare =>
    obtain ⟨-, -, -, -, -, -, rfl, -⟩ := Scopes.declare_eq_ok hdeclare
    exact setThen (hstate.congr rfl rfl rfl) (Nat.le_refl _) (pure h.spans)
  next stop hrefused =>
    cases stop with
    | diagnosis cause =>
        obtain ⟨-, -, previous, -, -, rfl⟩ := Scopes.declare_eq_diagnosis hrefused
        exact failAt h
    | breakdown cause => exact breakdown cause

theorem resolve (name : String) {location : Location} (h : Names whole name location) :
    Locates whole before (Parser.resolve name location) fun _ taken => taken = before := by
  apply getThen
  intro state _
  split
  next => exact pure rfl
  next stop hrefused =>
    cases stop with
    | diagnosis cause =>
        obtain rfl := Scopes.lookup_eq_diagnosis hrefused
        exact failAt h
    | breakdown cause => exact breakdown cause

/-- The elements of a list, and the tokens of each, with commas in between. -/
theorem separated {element : Parser α} {post : α → Prop} (spelled : List Token → Prop)
    (h : ∀ before, Locates whole before element fun value taken =>
      post value ∧ spelled (between whole before taken)) (count : Nat) :
    Locates whole before (Parser.separated element count) fun list taken =>
      (∀ value ∈ list, post value) ∧ ∃ parts, parts ≠ [] ∧ (∀ tokens ∈ parts, spelled tokens) ∧
        between whole before taken = Term.commaSeparated parts := by
  induction count generalizing before with
  | zero => exact fail fun _ => rfl
  | succ count ih =>
      apply (h before).bind
      rintro first middle hle ⟨hfirst, hspelled⟩
      apply (optional _).bind
      intro more taken hmore hcomma
      apply ite
      · rintro rfl
        obtain ⟨rfl, hcomma⟩ := hcomma
        apply ih.bind
        rintro rest taken hrest ⟨hvalues, parts, hne, hparts, htokens⟩
        refine pure ⟨List.forall_mem_cons.mpr ⟨hfirst, hvalues⟩,
          between whole before middle :: parts, List.cons_ne_nil _ _,
          List.forall_mem_cons.mpr ⟨hspelled, hparts⟩, ?_⟩
        obtain ⟨second, others, rfl⟩ := List.exists_cons_of_ne_nil hne
        rw [Term.commaSeparated_cons, ← htokens, ← between_append hle (Nat.le_of_succ_le hrest),
          ← between_append (Nat.le_succ middle) hrest, between_succ hcomma]
        rfl
      · intro hnone
        rw [if_neg hnone] at hcomma
        subst hcomma
        exact pure ⟨List.forall_mem_singleton.mpr hfirst, [between whole before taken],
          List.cons_ne_nil _ _, List.forall_mem_singleton.mpr hspelled,
          (Term.commaSeparated_singleton _).symm⟩

end Locates

/-! ## Expressions -/

/-- From wherever it begins the parser reads an expression with places of constructs, of tokens
that spell a term up to a level. -/
def Reads (whole : List (Located Token)) (level : Nat) (parser : Parser Expr) : Prop :=
  ∀ before, Locates whole before parser fun e taken =>
    e.Lies (·.SpansTerm whole) ∧ Spells whole level before taken

namespace Locates

variable {nested : Parser Expr} {start : Location}

/-- Operands between operators of a level spell a term of the level, whose place goes from the
first operand to the last one. -/
theorem operatorTail {operand : Parser Expr} {k : Nat} (h : Reads whole (k + 2) operand)
    (hstart : Starts whole begun start) (count : Nat) {left : Expr}
    (hleft : left.Lies (·.SpansTerm whole)) (hspells : Spells whole (k + 3) begun before) :
    Locates whole before
      (Parser.operatorTail operand (operatorLevels.getD k []) start count left) fun e taken =>
        e.Lies (·.SpansTerm whole) ∧ Spells whole (k + 3) begun taken := by
  -- On the rounds: each one makes the tokens since the beginning a left operand.
  induction count generalizing before left with
  | zero => exact pure ⟨hleft, hspells⟩
  | succ count ih =>
      apply peekThen
      split
      next op hop =>
        obtain ⟨hcomes, hlevel⟩ := operator?_binary.mp hop
        apply next.bind
        rintro _ _ - ⟨rfl, -⟩
        apply (h (before + 1)).bind
        rintro right taken - ⟨hright, hoperand⟩
        have hwhole := hspells.binary op hlevel hcomes hoperand
        apply scopeThen
        intro here
        apply lastThen
        intro stop hstop
        apply (built (Expr.combined_within (hstart.span hwhole hstop) op hleft hright)).bind
        rintro combined _ - ⟨rfl, hcombined⟩
        exact ih hcombined hwhole
      next => exact pure ⟨hleft, hspells⟩

/-- A call spans its name and everything up to the closing parenthesis. -/
theorem call (h : Reads whole loosestLevel nested) {name : String}
    (hname : Comes whole begun (.identifier name)) (hstart : Starts whole begun start)
    (hspans : Names whole name start) :
    Locates whole (begun + 1) (Parser.call nested name start) fun e taken =>
      e.Lies (·.SpansTerm whole) ∧ Spells whole 0 begun taken := by
  apply (resolve name hspans).bind
  rintro function _ - rfl
  split
  next result parameters _ =>
    have hrest : ∀ {arguments : List Expr} {taken : Nat}, Spells whole 0 begun taken →
        (∀ e ∈ arguments, e.Lies (·.SpansTerm whole)) → Locates whole taken (do
          Parser.built (Expr.called (← Parser.scope) (.span start (← Parser.last)) function result
            parameters arguments)) fun e after =>
              e.Lies (·.SpansTerm whole) ∧ Spells whole 0 begun after := by
      intro arguments taken hspells harguments
      apply scopeThen
      intro here
      apply lastThen
      intro stop hstop
      apply (built (Expr.called_within (hstart.span hspells hstop) function result parameters
        harguments)).mono
      rintro e _ ⟨rfl, he⟩
      exact ⟨he, hspells⟩
    apply (expect _).bind
    rintro _ _ - ⟨rfl, hopen⟩
    apply (optional _).bind
    intro closed taken _ hclosed
    apply ite
    · rintro rfl
      obtain ⟨rfl, hclose⟩ := hclosed
      rw [pure_bind]
      have hnone : between whole (begun + 2) (begun + 2) = Term.commaSeparated [] := by
        rw [between, part, Nat.sub_self]
        rfl
      exact hrest (.call hname hopen (Nat.le_refl _) hnone (fun _ hmem => nomatch hmem) hclose)
        fun _ hmem => nomatch hmem
    · intro hopened
      rw [if_neg hopened] at hclosed
      subst hclosed
      apply boundThen
      intro count
      apply (separated (fun tokens => ∃ t : Term, t.Spelling loosestLevel tokens) h count).bind
      rintro arguments read hle ⟨harguments, parts, -, hparts, htokens⟩
      apply (expect _).bind
      rintro _ _ - ⟨rfl, hclose⟩
      rw [pure_bind]
      exact hrest (.call hname hopen hle htokens hparts hclose) harguments
  next => exact failAt hspans

theorem use {name : String} (hname : Comes whole begun (.identifier name))
    (hspans : Names whole name start) :
    Locates whole (begun + 1) (Parser.use name start) fun e taken =>
      e.Lies (·.SpansTerm whole) ∧ Spells whole 0 begun taken := by
  apply (resolve name hspans).bind
  rintro symbol _ - rfl
  apply ite
  · exact fun _ => failAt hspans
  · exact fun _ => scopeThen fun _ => pure ⟨hspans.spansTerm, .name hname⟩

/-- A literal has the place of its token. -/
theorem literal {token : Token} {t : Term} (hspelling : t.Spelling 0 [token])
    (hcomes : Comes whole begun token) (hspans : start.SpansOf (· = [token]) whole)
    {make : Note → Expr} {type : Ty}
    (hmake : ∀ note : Note, note.location.SpansTerm whole → (make note).Lies (·.SpansTerm whole)) :
    Locates whole (begun + 1) (Parser.literal make type start) fun e taken =>
      e.Lies (·.SpansTerm whole) ∧ Spells whole 0 begun taken :=
  scopeThen fun _ => pure ⟨hmake _ (hspans.mono fun _ htokens => htokens ▸ hspelling.isTerm), t,
    between_succ hcomes ▸ hspelling⟩

/-- What stands by itself is a literal, a name, a call or a term in parentheses. -/
theorem primary (h : Reads whole loosestLevel nested) :
    Reads whole 0 (Parser.primary nested) := by
  intro before
  apply next.bind
  rintro ⟨token, location⟩ _ - ⟨rfl, htoken⟩
  have hspans : location.SpansOf (· = [token]) whole :=
    Location.spansOf_of_mem (List.mem_of_getElem? htoken) rfl
  have hstart : Starts whole before location := fun found hfound => by
    rw [htoken, Option.some.injEq] at hfound
    exact hfound ▸ rfl
  have hcomes : Comes whole before token := by
    rw [Comes, htoken]
    rfl
  cases token with
  | integer value => exact literal (.integer value) hcomes hspans fun _ hnote => hnote
  | character byte => exact literal (.character byte) hcomes hspans fun _ hnote => hnote
  | string bytes => exact literal (.string bytes) hcomes hspans fun _ hnote => hnote
  | identifier name =>
      apply peekThen
      exact ite (fun _ => call h hcomes hstart hspans) fun _ => use hcomes hspans
  | mark m =>
      cases m with
      | openParen =>
          apply (h (before + 1)).bind
          rintro inner taken - ⟨hinner, hspells⟩
          apply (expect _).bind
          rintro _ _ - ⟨rfl, hclose⟩
          exact pure ⟨hinner, .parenthesized hcomes hspells hclose⟩
      | _ => exact fail fun _ => rfl
  | _ => exact fail fun _ => rfl

/-- Trailing steps make the place longer by a token each. -/
theorem trailingSteps (hstart : Starts whole begun start) (count : Nat) {operand : Expr}
    (hoperand : operand.Lies (·.SpansTerm whole)) (hspells : Spells whole trailingLevel begun before) :
    Locates whole before (Parser.trailingSteps start count operand) fun e taken =>
      e.Lies (·.SpansTerm whole) ∧ Spells whole trailingLevel begun taken := by
  induction count generalizing before operand with
  | zero => exact pure ⟨hoperand, hspells⟩
  | succ count ih =>
      apply peekThen
      split
      next op back hop =>
        obtain ⟨step, hcomes, rfl, rfl⟩ := trailingStep?_step.mp hop
        apply next.bind
        rintro _ _ - ⟨rfl, -⟩
        have hwhole := hspells.trailing step hcomes
        apply scopeThen
        intro here
        apply lastThen
        intro stop hstop
        apply (built (Expr.steppedAfter_within (hstart.span hwhole hstop) _ _ hoperand)).bind
        rintro stepped _ - ⟨rfl, hstepped⟩
        exact ih hstepped hwhole
      next => exact pure ⟨hoperand, hspells⟩

theorem trailing (h : Reads whole loosestLevel nested) :
    Reads whole trailingLevel (Parser.trailing nested) := by
  intro before
  apply startThen
  intro start hstart
  apply (primary h before).bind
  rintro operand taken - ⟨hoperand, hspells⟩
  exact boundThen fun count => trailingSteps hstart count hoperand (hspells.looser (by decide))

theorem applyLeading (op : UnaryOp) (hstart : Starts whole begun start)
    (hspells : Spells whole leadingLevel begun before) {operand : Expr}
    (hoperand : operand.Lies (·.SpansTerm whole)) :
    Locates whole before (Parser.applyLeading op start operand) fun e taken =>
      e.Lies (·.SpansTerm whole) ∧ Spells whole leadingLevel begun taken := by
  apply scopeThen
  intro here
  apply lastThen
  intro stop hstop
  have hspan := hstart.span hspells hstop
  have hbuilt : ∀ {rule : Checked (Noted Expr)},
      rule.Within (·.SpansTerm whole) (Noted.Lies (·.SpansTerm whole)) →
      Locates whole before (Parser.built rule) fun e taken =>
        e.Lies (·.SpansTerm whole) ∧ Spells whole leadingLevel begun taken := fun hrule =>
    (built hrule).mono fun _ _ hdone => ⟨hdone.2, hdone.1 ▸ hspells⟩
  cases op with
  | increment | decrement => exact hbuilt (Expr.stepped_within hspan _ hoperand)
  | _ => exact hbuilt (Expr.applied_within hspan _ hoperand)

/-- A leading operator makes the place of its operand begin earlier. -/
theorem leading (h : Reads whole loosestLevel nested) (count : Nat) :
    Reads whole leadingLevel (Parser.leading nested count) := by
  induction count with
  | zero => exact fun _ => fail fun _ => rfl
  | succ count ih =>
      intro before
      apply startThen
      intro start hstart
      apply peekThen
      split
      next op hop =>
        apply next.bind
        rintro _ _ - ⟨rfl, -⟩
        apply (ih (before + 1)).bind
        rintro operand taken - ⟨hoperand, hspells⟩
        exact applyLeading op hstart (hspells.leading op (operator?_leading.mp hop)) hoperand
      next =>
        apply (trailing h before).mono
        exact fun _ _ hread => ⟨hread.1, hread.2.looser (by decide)⟩

theorem upTo (h : Reads whole loosestLevel nested) (count level : Nat)
    (hlevel : level ≤ binaryLevel) : Reads whole level (Parser.upTo nested count level) := by
  match level with
  | 0 => exact primary h
  | 1 => exact trailing h
  | 2 => exact leading h count
  | k + 3 =>
      have hoperand := upTo h count (k + 2) (Nat.le_of_succ_le hlevel)
      intro before
      apply startThen
      intro start hstart
      apply (hoperand before).bind
      rintro left taken - ⟨hleft, hspells⟩
      apply boundThen
      intro rounds
      exact operatorTail hoperand hstart rounds hleft (hspells.looser (Nat.lt_succ_of_lt hlevel))

/-- Expressions and assignments have places of terms, by induction on the bound. -/
theorem expressionWithin (count : Nat) :
    Reads whole loosestLevel (Parser.expressionWithin count) := by
  induction count with
  | zero => exact fun _ => fail fun _ => rfl
  | succ count ih =>
      intro before
      apply startThen
      intro start hstart
      rw [operators_eq_upTo]
      apply (upTo ih (count + 1) binaryLevel (Nat.le_refl _) before).bind
      rintro target middle - ⟨htarget, hspells⟩
      apply (optional _).bind
      intro found taken _ hfound
      apply ite
      · rintro rfl
        obtain ⟨rfl, hassign⟩ := hfound
        apply (ih (middle + 1)).bind
        rintro value taken - ⟨hvalue, hread⟩
        have hwhole := hspells.assign hassign hread
        apply scopeThen
        intro here
        apply lastThen
        intro stop hstop
        apply (built (Expr.assigned_within (hstart.span hwhole hstop) htarget hvalue)).mono
        exact fun _ _ hdone => ⟨hdone.2, hdone.1 ▸ hwhole⟩
      · intro hnone
        rw [if_neg hnone] at hfound
        exact pure ⟨htarget, hfound ▸ hspells.looser (by decide)⟩

/-- Every expression in an expression has the place of a term. -/
theorem expression : Locates whole before Parser.expression fun e _ =>
    e.Lies (·.SpansTerm whole) :=
  boundThen fun count => (expressionWithin count before).mono fun _ _ hread => hread.1

end Locates

/-! ## Statements -/

namespace Locates

theorem initialValue (external : Bool) (type : Ty) {name : Located String} :
    Locates whole before (Parser.initialValue external type name) fun e _ =>
      e.Lies (·.Spans whole) := by
  apply expression.bind
  intro value taken _ hvalue
  have hrest : ∀ taken, Locates whole taken (do
      Parser.bindValue type value
      if (← Parser.scope) = globalScope ∧ ¬ value.isInitializer then
        Parser.failAt (.notConstant name.value) value.location
      return value) fun e _ => e.Lies (·.Spans whole) := by
    intro taken
    apply (bindValue type hvalue).bind
    intro _ _ _ _
    apply scopeThen
    intro here
    apply ite
    · exact fun _ => failAtThen hvalue.location
    · exact fun _ => pure hvalue.spans
  exact ite (fun _ => failThen fun _ => rfl) fun _ => hrest taken

/-- A declaration is at its name, and its initial value at a term. -/
theorem declaration : Locates whole before Parser.declaration fun declared _ =>
    declared.Lies (·.Spans whole) := by
  apply (optional _).bind
  intro external _ _ _
  apply type.bind
  intro type _ _ _
  apply identifier.bind
  intro name taken _ hname
  have hdeclare : ∀ {initial : Option Expr} {taken : Nat},
      (∀ value ∈ initial, value.Lies (·.Spans whole)) → Locates whole taken
        (do return ⟨← Parser.declare (← Parser.scope) name type external, initial⟩ :
          Parser Declaration) fun declared _ => declared.Lies (·.Spans whole) := fun hinitial =>
    scopeThen fun here => (declare here type external hname).bind fun _ _ _ hsymbol =>
      pure ⟨hsymbol, hinitial⟩
  have hrest : ∀ taken, Locates whole taken (do
      let initial ←
        if ← Parser.optional (.mark .assign) then
          some <$> Parser.initialValue external type name
        else Pure.pure none
      return ⟨← Parser.declare (← Parser.scope) name type external, initial⟩ :
      Parser Declaration) fun declared _ => declared.Lies (·.Spans whole) := by
    intro taken
    apply (optional _).bind
    intro _ found _ _
    apply ite
    · intro _
      have hinitial : Locates whole found (some <$> Parser.initialValue external type name)
          fun initial _ => ∀ value ∈ initial, value.Lies (·.Spans whole) :=
        map ((initialValue external type).mono fun value _ hvalue _ hmem =>
          Option.some.inj hmem ▸ hvalue)
      exact hinitial.bind fun _ _ _ hinitial => hdeclare hinitial
    · intro _
      rw [pure_bind]
      exact hdeclare fun _ hmem => absurd hmem (Option.not_mem_none _)
  exact ite (fun _ => (requireVariable type hname).bind fun _ taken _ _ => hrest taken) fun _ =>
    hrest taken

theorem condition : Locates whole before Parser.condition fun e _ => e.Lies (·.Spans whole) := by
  apply (expect _).bind
  intro _ _ _ _
  apply expression.bind
  intro value _ _ hvalue
  apply (expect _).bind
  intro _ _ _ _
  exact (checked (.requireValue hvalue)).bind fun _ _ _ _ => pure hvalue.spans

/-- A returned value is at a term. -/
theorem returnedValue : Locates whole before Parser.returnedValue fun value _ =>
    ∀ given ∈ value, given.Lies (·.Spans whole) := by
  have hnone : ∀ given ∈ (none : Option Expr), given.Lies (·.Spans whole) := fun _ hmem =>
    absurd hmem (Option.not_mem_none _)
  apply getThen
  intro state _
  apply (optional _).bind
  intro found read _ _
  apply ite
  · exact fun _ => ite (fun _ => failThen fun _ => rfl) fun _ => pure hnone
  · intro _
    apply expression.bind
    intro value _ _ hvalue
    apply (expect _).bind
    intro _ taken _ _
    have hrest : ∀ taken, Locates whole taken (do
        Parser.bindValue (state.result.getD .void) value
        return some value) fun value _ => ∀ given ∈ value, given.Lies (·.Spans whole) := fun taken =>
      (bindValue _ hvalue).bind fun _ _ _ _ => pure fun _ hmem => Option.some.inj hmem ▸ hvalue.spans
    exact ite (fun _ => failAtThen hvalue.location) fun _ => hrest taken

/-- From wherever it begins the parser reads a statement with places of constructs. -/
def ReadsStatement (whole : List (Located Token)) (parser : Parser Statement) : Prop :=
  ∀ before, Locates whole before parser fun statement _ => statement.Lies (·.Spans whole)

theorem expressionStatement : ReadsStatement whole Parser.expressionStatement := by
  intro before
  apply expression.bind
  intro value _ _ hvalue
  apply (expect _).bind
  intro _ _ _ _
  apply ite
  · exact fun _ => (checked (.requireValue hvalue)).bind fun _ _ _ _ => pure hvalue.spans
  · exact fun _ => pure hvalue.spans

theorem blockRest {statement : Parser Statement} (h : ReadsStatement whole statement)
    (count : Nat) : Locates whole before (Parser.blockRest statement count) fun body _ =>
      Statement.AllLie (·.Spans whole) body := by
  induction count generalizing before with
  | zero => exact fail fun _ => rfl
  | succ count ih =>
      have hrest : ∀ {first : Statement} {taken : Nat}, first.Lies (·.Spans whole) →
          Locates whole taken (do return first :: (← Parser.blockRest statement count))
            fun body _ => Statement.AllLie (·.Spans whole) body := fun hfirst =>
        ih.bind fun rest _ _ hlist => pure ⟨hfirst, hlist⟩
      apply (optional _).bind
      intro closed taken _ _
      apply ite
      · exact fun _ => pure trivial
      · intro _
        apply peekThen
        apply ite
        · intro _
          apply declaration.bind
          intro declared _ _ hdeclared
          apply (expect _).bind
          intro _ _ _ _
          rw [pure_bind]
          exact hrest hdeclared
        · exact fun _ => (h taken).bind fun first _ _ hfirst => hrest hfirst

/-- All statements of a block have places of constructs. -/
theorem block {statement : Parser Statement} (h : ReadsStatement whole statement) :
    Locates whole before (Parser.block statement) fun read _ =>
      Statement.AllLie (·.Spans whole) read.2.1 := by
  apply (expect _).bind
  intro _ _ _ _
  apply lastThen
  intro start _
  apply scopeThen
  intro outer
  apply (withScopes _).bind
  intro inner _ _ _
  apply modifyThen
  · exact fun _ hstate => hstate.congr rfl rfl rfl
  apply boundThen
  intro count
  apply (blockRest h count).bind
  intro body _ _ hbody
  apply modifyThen
  · exact fun _ hstate => hstate.congr rfl rfl rfl
  · exact lastThen fun _ _ => pure hbody

/-- Statements have places of constructs, by induction on the bound. -/
theorem statementWithin (count : Nat) : ReadsStatement whole (Parser.statementWithin count) := by
  induction count with
  | zero => exact fun _ => fail fun _ => rfl
  | succ count ih =>
      intro before
      apply peekThen
      split
      · apply (expect _).bind
        intro _ _ _ _
        apply lastThen
        intro location hlocation
        apply returnedValue.bind
        intro value _ _ hvalue
        exact scopeThen fun _ => pure ⟨hlocation.spans, hvalue⟩
      · apply (expect _).bind
        intro _ taken _ _
        apply lastThen
        intro location hlocation
        apply condition.bind
        intro test tested _ htest
        apply (ih tested).bind
        intro yes _ _ hyes
        apply (optional _).bind
        intro _ other _ _
        apply ite
        · exact fun _ => (ih other).bind fun no _ _ hno =>
            pure ⟨hlocation.spans, htest, hyes, hno⟩
        · exact fun _ => pure ⟨hlocation.spans, htest, hyes, trivial⟩
      · apply (expect _).bind
        intro _ taken _ _
        apply lastThen
        intro location hlocation
        apply condition.bind
        intro test tested _ htest
        exact (ih tested).bind fun body _ _ hbody => pure ⟨hlocation.spans, htest, hbody⟩
      · exact (block ih).bind fun read _ _ hbody => pure hbody
      · exact expressionStatement before

theorem statement : ReadsStatement whole Parser.statement := fun before =>
  boundThen fun count => statementWithin count before

/-! ## Programs -/

theorem parameter (scope : ScopeId) :
    Locates whole before (Parser.parameter scope) fun _ _ => True := by
  apply type.bind
  intro type _ _ _
  apply identifier.bind
  intro name _ _ hname
  apply (requireVariable type hname).bind
  intro _ _ _ _
  exact (declare scope type false hname).bind fun _ _ _ _ => pure trivial

/-- The places in a function are those of its name and of its body. -/
theorem functionRest (result : Ty) {name : Located String}
    (hname : Names whole name.value name.location)
    (scope : ScopeId) (parameters : List Ty) :
    Locates whole before (Parser.functionRest result name scope parameters) fun function _ =>
      (Item.function function).Lies (·.Spans whole) := by
  apply (expect _).bind
  intro _ _ _ _
  apply (withScopes _).bind
  intro _ _ _ _
  apply (declare globalScope _ false hname).bind
  intro symbol _ _ hsymbol
  apply modifyThen
  · exact fun _ hstate => hstate.congr rfl rfl rfl
  apply (block statement).bind
  intro read _ _ hbody
  apply modifyThen
  · exact fun _ hstate => hstate.congr rfl rfl rfl
  · exact pure ⟨hsymbol, hbody⟩

theorem function : Locates whole before Parser.function fun function _ =>
    (Item.function function).Lies (·.Spans whole) := by
  apply type.bind
  intro result _ _ _
  apply identifier.bind
  intro name _ _ hname
  apply (expect _).bind
  intro _ _ _ _
  apply (withScopes _).bind
  intro scope _ _ _
  apply peekThen
  split
  · exact functionRest result hname scope []
  · apply boundThen
    intro count
    have hparameter : ∀ before, Locates whole before (Parser.parameter scope) fun _ _ =>
        True ∧ True := fun _ => (parameter scope).mono fun _ _ _ => ⟨trivial, trivial⟩
    apply (separated (fun _ => True) hparameter count).bind
    exact fun parameters _ _ _ => functionRest result hname scope parameters

/-- An item of either kind is at its name. -/
theorem item : Locates whole before Parser.item fun item _ => item.Lies (·.Spans whole) := by
  apply getThen
  intro state _
  apply ite
  · exact fun _ => function.bind fun _ _ _ hdefined => pure hdefined
  · exact fun _ => declaration.bind fun _ _ _ hdeclared => (expect _).bind fun _ _ _ _ =>
      pure hdeclared

theorem items (count : Nat) : Locates whole before (Parser.items count) fun list _ =>
    ∀ item ∈ list, item.Lies (·.Spans whole) := by
  induction count generalizing before with
  | zero => exact pure fun _ hmem => nomatch hmem
  | succ count ih =>
      apply peekThen
      apply ite
      · exact fun _ => pure fun _ hmem => nomatch hmem
      · exact fun _ => item.bind fun first _ _ hfirst => ih.bind fun rest _ _ hrest =>
          pure (List.forall_mem_cons.mpr ⟨hfirst, hrest⟩)

/-- All places of a program, and that of the error which stops the reading, are places of
constructs. -/
theorem program : Locates whole before Parser.program fun list _ =>
    ∀ item ∈ list, item.Lies (·.Spans whole) := by
  apply boundThen
  intro count
  apply (items count).bind
  intro list _ _ hlist
  apply getThen
  intro state _
  split
  · exact ite (fun _ => pure hlist) fun _ => fail fun _ => rfl
  · exact fail fun _ => rfl

end Locates

end AccumulatorC.Parser

namespace AccumulatorC

/-- The state that reading begins with is in the midst of the tokens. -/
theorem Parser.amid_initial {tokens : List (Located Token)} (hne : tokens ≠ []) :
    Parser.Amid tokens 0
      ⟨tokens, tokens.length, tokens.head?.elim (Location.startOf "<input>") (·.location), .initial,
        globalScope, none, []⟩ := by
  obtain ⟨first, rest, rfl⟩ := List.exists_cons_of_ne_nil hne
  exact ⟨rfl, ⟨first, rfl, rfl⟩, fun _ hmem => nomatch hmem⟩

/-- An error that is found while reading tokens has the place of what it is about, the warnings have
the places of expressions and what is read has those of constructs. -/
theorem Program.ofTokens_spans {tokens : List (Located Token)} (hne : tokens ≠ []) :
    (∀ entry, ofTokens tokens = .error (.diagnosis entry) →
        entry.location.SpansOf entry.value.IsAbout tokens) ∧
      ∀ parsed, ofTokens tokens = .ok parsed →
        AllAt (·.SpansTerm tokens) parsed.warnings ∧
          ∀ item ∈ parsed.program.items, item.Lies (·.Spans tokens) := by
  have harrives := Parser.Locates.program _ (Parser.amid_initial hne)
  constructor
  · intro entry hread
    unfold ofTokens at hread
    simp only [StateT.run] at hread
    split at hread
    · cases hread
    next stop hrun =>
      cases hread
      rw [hrun] at harrives
      exact harrives
  · intro parsed hread
    unfold ofTokens at hread
    simp only [StateT.run] at hread
    split at hread
    next items state hrun =>
      cases hread
      rw [hrun] at harrives
      obtain ⟨taken, -, hamid, hitems⟩ := harrives
      exact ⟨hamid.warnings, hitems⟩
    · cases hread

end AccumulatorC
