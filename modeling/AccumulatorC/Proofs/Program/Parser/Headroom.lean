import AccumulatorC.Proofs.Program.Parser.Unit

/-!
# Headroom while reading

Frames grow by at most two bytes at a time, and each time by no more bytes than tokens have been
taken for them. So while a program is read no frame has more bytes than there are tokens, and
reading breaks down only if there are as many of them as the address space has bytes.
-/

namespace AccumulatorC

/-! ## Scopes that grow -/

namespace Scopes

variable {scopes after : Scopes} {id : ScopeId}

/-- Declaring in a known scope breaks down only where its frame grows too large. -/
theorem declare_eq_breakdown {name : String} {location : Location} {type : Ty} {external : Bool}
    {cause : Breakdown} (hknown : id < scopes.list.length)
    (h : scopes.declare id name location type external = .error (.breakdown cause)) :
    cause = .overflow ∧ ∃ table ∈ scopes.list, addressLimit ≤ table.frame + type.size := by
  have htable : scopes.get id = .ok scopes.list[id] :=
    get_eq_ok.mpr (List.getElem?_eq_getElem hknown)
  simp only [declare_eq, htable, Breakdown.lift, bind, Except.bind] at h
  split at h
  next => cases h
  next =>
    cases hallot : allot scopes.list[id] type external with
    | ok pair =>
        rw [hallot] at h
        cases h
    | error found =>
        rw [hallot] at h
        cases h
        unfold allot at hallot
        split at hallot
        · cases hallot
        · split at hallot
          · cases hallot
          · rw [map_eq_error, addBytes_eq_error] at hallot
            exact ⟨hallot.2, _, List.getElem_mem hknown, hallot.1⟩

theorem reserve_eq_error {bytes : Nat} {cause : Breakdown} (hknown : id < scopes.list.length)
    (h : scopes.reserve id bytes = .error cause) :
    cause = .overflow ∧ ∃ table ∈ scopes.list, addressLimit ≤ table.frame + bytes := by
  have htable : scopes.get id = .ok scopes.list[id] :=
    get_eq_ok.mpr (List.getElem?_eq_getElem hknown)
  rw [reserve, htable, bind_eq_error] at h
  rcases h with h | ⟨table, htable, h⟩
  · cases h
  · cases htable
    rw [bind_eq_error, addBytes_eq_error] at h
    rcases h with ⟨hlarge, hcause⟩ | ⟨frame, -, h⟩
    · exact ⟨hcause, _, List.getElem_mem hknown, hlarge⟩
    · cases h

theorem lookup_eq_breakdown {name : String} {cause : Breakdown}
    (hknown : id < scopes.list.length) : scopes.lookup id name ≠ .error (.breakdown cause) := by
  have htable : scopes.get id = .ok scopes.list[id] :=
    get_eq_ok.mpr (List.getElem?_eq_getElem hknown)
  intro h
  simp only [lookup, htable, Breakdown.lift, bind, Except.bind] at h
  split at h <;> cases h

end Scopes

namespace Parser

variable {α β : Type} {total known more spare before middle after : Nat}

/-! ## States with room -/

/-- A state in the midst of so many tokens. Its first scopes are known, the innermost one among
them. No frame has more bytes than tokens have been taken, and so many of these are left over. -/
structure Room (total known spare : Nat) (state : ParseState) : Prop where
  known_le : known ≤ state.scopes.list.length
  scope_lt : state.scope < known
  frames : ∀ table ∈ state.scopes.list, table.frame + state.tokens.length + spare ≤ total

namespace Room

variable {state later : ParseState}

theorem mono (h : Room total known more state) (hle : spare ≤ more) :
    Room total known spare state where
  known_le := h.known_le
  scope_lt := h.scope_lt
  frames table hmem := Nat.le_trans (Nat.add_le_add_left hle _) (h.frames table hmem)

/-- Another scope can become the innermost one. -/
theorem moveTo (h : Room total more spare state) (hscopes : later.scopes = state.scopes)
    (htokens : later.tokens = state.tokens) (hscope : later.scope < known) (hle : known ≤ more) :
    Room total known spare later where
  known_le := by
    rw [hscopes]
    exact Nat.le_trans hle h.known_le
  scope_lt := hscope
  frames := by
    rw [hscopes, htokens]
    exact h.frames

/-- A token that is taken is left over at first. -/
theorem take (h : Room total known spare state) {token : Located Token}
    {rest : List (Located Token)} (htokens : state.tokens = token :: rest) :
    Room total known (spare + 1) { state with tokens := rest, last := token.location } where
  known_le := h.known_le
  scope_lt := h.scope_lt
  frames table hmem := by
    have hframe := h.frames table hmem
    rw [htokens, List.length_cons] at hframe
    show table.frame + rest.length + (spare + 1) ≤ total
    omega

/-- Tokens that are left over make room for as many bytes. -/
theorem set (h : Room total known (spare + more) state) {id : ScopeId} {earlier table : Scope}
    (hmem : earlier ∈ state.scopes.list) (hframe : table.frame ≤ earlier.frame + more) :
    Room total known spare { state with scopes := state.scopes.set id table } where
  known_le := by
    show known ≤ (state.scopes.list.set id table).length
    rw [List.length_set]
    exact h.known_le
  scope_lt := h.scope_lt
  frames other hother := by
    show other.frame + state.tokens.length + spare ≤ total
    rcases List.mem_or_eq_of_mem_set hother with hold | rfl
    · have hle := h.frames other hold
      omega
    · have hle := h.frames earlier hmem
      omega

/-- The scope that is entered is known afterwards. -/
theorem enter (h : Room total known spare state) {parent id : ScopeId} {scopes : Scopes}
    (henter : state.scopes.enter parent = .ok (id, scopes)) :
    known ≤ id ∧ Room total (id + 1) spare { state with scopes } := by
  obtain ⟨-, rfl, rfl⟩ := Scopes.enter_eq_ok henter
  refine ⟨h.known_le, ?_, Nat.lt_succ_of_lt (Nat.lt_of_lt_of_le h.scope_lt h.known_le), ?_⟩
  · show state.scopes.list.length + 1 ≤ (state.scopes.list ++ _).length
    rw [List.length_append, List.length_singleton]
  · intro table hmem
    show table.frame + state.tokens.length + spare ≤ total
    rcases List.mem_append.mp hmem with hold | hnew
    · exact h.frames table hold
    · -- The new frame is empty, so there is room for it as for the one around.
      rw [List.mem_singleton.mp hnew]
      have hknown := Nat.lt_of_lt_of_le h.scope_lt h.known_le
      have hle := h.frames _ (List.getElem_mem hknown)
      simp only
      omega

/-- A frame that would grow too large means that there are many tokens. -/
theorem addressLimit_le (h : Room total known (spare + more) state) {table : Scope}
    (hmem : table ∈ state.scopes.list) (hlarge : addressLimit ≤ table.frame + more) :
    addressLimit ≤ total := by
  have hle := h.frames table hmem
  omega

end Room

/-! ## Parsers that cope -/

/-- From the state the parser breaks down only over byte counts, and only if there are enough tokens
for them. Whatever it gives meets the postcondition. -/
def Copes (total : Nat) (parser : Parser α) (state : ParseState)
    (post : α → ParseState → Prop) : Prop :=
  (∀ cause, parser state = .error (.breakdown cause) → cause = .overflow ∧ addressLimit ≤ total) ∧
    Ensures parser state post

namespace Copes

variable {state : ParseState} {post other : α → ParseState → Prop}

theorem mono {parser : Parser α} (h : Copes total parser state post)
    (himp : ∀ value after, post value after → other value after) :
    Copes total parser state other := ⟨h.1, h.2.mono himp⟩

theorem pure {value : α} (h : post value state) : Copes total (Pure.pure value) state post :=
  ⟨nofun, ensures_pure.mpr h⟩

theorem bind {first : Parser α} {second : α → Parser β} {last : β → ParseState → Prop}
    (h : Copes total first state post)
    (hsecond : ∀ value after, post value after → Copes total (second value) after last) :
    Copes total (first >>= second) state last := by
  refine ⟨?_, ensures_bind.mpr (h.2.mono fun value after hpost => (hsecond value after hpost).2)⟩
  intro cause hrun
  simp only [Bind.bind, StateT.bind, Except.bind] at hrun
  cases hfirst : first state with
  | error stop =>
      rw [hfirst] at hrun
      cases hrun
      exact h.1 cause hfirst
  | ok done =>
      rw [hfirst] at hrun
      exact (hsecond done.1 done.2 (h.2 _ _ hfirst)).1 cause hrun

theorem get {post : ParseState → ParseState → Prop} (h : post state state) :
    Copes total MonadState.get state post := ⟨nofun, ensures_get.mpr h⟩

/-- What is done with the state that is found. -/
theorem getThen {second : ParseState → Parser α} (h : Copes total (second state) state post) :
    Copes total (MonadState.get >>= second) state post := by
  have hget : Copes total MonadState.get state fun found later => found = state ∧ later = state :=
    .get ⟨rfl, rfl⟩
  apply hget.bind
  rintro _ _ ⟨rfl, rfl⟩
  exact h

theorem setThen {next : ParseState} {second : PUnit → Parser α}
    (h : Copes total (second ⟨⟩) next post) :
    Copes total (MonadStateOf.set next >>= second) state post := by
  have hset : Copes total (MonadStateOf.set next) state fun _ later => later = next :=
    ⟨nofun, ensures_set.mpr rfl⟩
  apply hset.bind
  rintro _ _ rfl
  exact h

theorem modify {change : ParseState → ParseState} {post : PUnit → ParseState → Prop}
    (h : post ⟨⟩ (change state)) : Copes total (modify change) state post :=
  ⟨nofun, ensures_modify.mpr h⟩

theorem throw {stop : Stop (Located ParseError)}
    (h : ∀ cause, stop = .breakdown cause → cause = .overflow ∧ addressLimit ≤ total) :
    Copes total (throw stop) state post := by
  refine ⟨?_, ensures_throw⟩
  rintro cause ⟨⟩
  exact h cause rfl

theorem failAt {cause : ParseError} {location : Location} :
    Copes total (Parser.failAt cause location : Parser α) state post := throw nofun

end Copes

/-- The parser copes wherever there is room with some tokens left over, and leaves room with
others. -/
def Sturdy (total known before after : Nat) (parser : Parser α) : Prop :=
  ∀ state, Room total known before state →
    Copes total parser state fun _ => Room total known after

namespace Sturdy

variable {first : Parser α} {second : α → Parser β}

theorem mono (h : Sturdy total known before more first) (hle : after ≤ more) :
    Sturdy total known before after first := fun state hstate =>
  (h state hstate).mono fun _ _ hroom => hroom.mono hle

theorem pure (value : α) : Sturdy total known spare spare (Pure.pure value) :=
  fun _ hstate => .pure hstate

theorem bind (h : Sturdy total known before middle first)
    (hsecond : ∀ value, Sturdy total known middle after (second value)) :
    Sturdy total known before after (first >>= second) := fun state hstate =>
  (h state hstate).bind fun value next hnext => hsecond value next hnext

theorem map (f : α → β) (h : Sturdy total known before after first) :
    Sturdy total known before after (f <$> first) := by
  rw [map_eq_pure_bind]
  exact h.bind fun value => pure (f value)

theorem ite {c : Prop} [Decidable c] {yes no : Parser α}
    (hyes : Sturdy total known before after yes) (hno : Sturdy total known before after no) :
    Sturdy total known before after (if c then yes else no) := by
  split
  · exact hyes
  · exact hno

theorem failAt (cause : ParseError) (location : Location) :
    Sturdy total known before after (Parser.failAt cause location : Parser α) :=
  fun _ _ => .failAt

theorem get : Sturdy total known spare spare (MonadState.get : Parser ParseState) :=
  fun _ hstate => ⟨nofun, ensures_get.mpr hstate⟩

theorem fail (cause : ParseError) :
    Sturdy total known spare after (Parser.fail cause : Parser α) :=
  get.bind fun _ => failAt cause _

theorem last : Sturdy total known spare spare Parser.last := get.bind fun _ => pure _

theorem scope : Sturdy total known spare spare Parser.scope := get.bind fun _ => pure _

theorem bound : Sturdy total known spare spare Parser.bound := get.bind fun _ => pure _

theorem peek : Sturdy total known spare spare Parser.peek := get.bind fun _ => pure _

theorem peekLocation : Sturdy total known spare spare Parser.peekLocation :=
  get.bind fun _ => pure _

/-- The innermost scope is known. -/
theorem scopeThen {second : ScopeId → Parser β}
    (h : ∀ here, here < known → Sturdy total known before after (second here)) :
    Sturdy total known before after (Parser.scope >>= second) := by
  intro state hstate
  have hscope : Copes total Parser.scope state fun here later =>
      here < known ∧ Room total known before later := ⟨nofun, by
    simpa [Parser.scope] using ⟨hstate.scope_lt, hstate⟩⟩
  exact hscope.bind fun here later hlater => h here hlater.1 later hlater.2

theorem getThen {second : ParseState → Parser β}
    (h : ∀ state, Room total known before state →
      Copes total (second state) state fun _ => Room total known after) :
    Sturdy total known before after (MonadState.get >>= second) := fun state hstate =>
  .getThen (h state hstate)

theorem takes_next : Sturdy total known spare (spare + 1) Parser.next := by
  apply getThen
  intro state hstate
  split
  next token rest htokens =>
    exact .setThen (.pure (hstate.take htokens))
  next => exact fail _ state hstate

theorem next : Sturdy total known spare spare Parser.next := takes_next.mono (Nat.le_succ _)

theorem optional (token : Token) : Sturdy total known spare spare (Parser.optional token) :=
  peek.bind fun _ => ite (next.bind fun _ => pure true) (pure false)

theorem takes_expect (token : Token) :
    Sturdy total known spare (spare + 1) (Parser.expect token) := by
  apply peek.bind
  intro found
  cases found with
  | none => exact fail _
  | some _ => exact takes_next.bind fun _ => ite (fail _) (pure _)

theorem expect (token : Token) : Sturdy total known spare spare (Parser.expect token) :=
  (takes_expect token).mono (Nat.le_succ _)

theorem takes_identifier : Sturdy total known spare (spare + 1) Parser.identifier := by
  apply takes_next.bind
  intro token
  split
  · exact pure _
  · exact fail _

theorem stars (count : Nat) (type : Ty) :
    Sturdy total known spare spare (Parser.stars count type) := by
  induction count generalizing type with
  | zero => exact pure _
  | succ count ih => exact (optional _).bind fun _ => ite (ih _) (pure _)

theorem takes_type : Sturdy total known spare (spare + 1) Parser.type := by
  apply takes_next.bind
  intro token
  split
  · exact bound.bind fun count => stars count _
  · exact bound.bind fun count => stars count _
  · exact bound.bind fun count => stars count _
  · exact fail _

theorem warn (warnings : List (Located Conversion)) :
    Sturdy total known spare spare (Parser.warn warnings) := fun _ hstate =>
  .modify (hstate.moveTo rfl rfl hstate.scope_lt (Nat.le_refl _))

theorem checked (result : Checked α) :
    Sturdy total known spare spare (Parser.checked result) := by
  cases result with
  | ok value => exact pure value
  | error located => exact failAt _ _

theorem built (result : Checked (Noted α)) :
    Sturdy total known spare spare (Parser.built result) :=
  (checked result).bind fun noted => (warn noted.warnings).bind fun _ => pure _

theorem bindValue (type : Ty) (value : Expr) :
    Sturdy total known spare spare (Parser.bindValue type value) :=
  (checked _).bind fun warnings => warn warnings

theorem requireVariable (type : Ty) (name : Located String) :
    Sturdy total known spare spare (Parser.requireVariable type name) :=
  ite (failAt _ _) (pure _)

theorem separated {element : Parser α} (h : Sturdy total known spare spare element) (count : Nat) :
    Sturdy total known spare spare (Parser.separated element count) := by
  induction count with
  | zero => exact fail _
  | succ count ih =>
      apply h.bind
      intro first
      exact (optional _).bind fun _ => ite (ih.bind fun rest => pure _) (pure _)

/-! ### Scopes -/

/-- A variable takes at most two bytes. -/
theorem declare {scope : ScopeId} (hscope : scope < known) (name : Located String) (type : Ty)
    (external : Bool) :
    Sturdy total known (spare + 2) spare (Parser.declare scope name type external) := by
  have hsize := type.size_le_two
  apply getThen
  intro state hstate
  have hknown := Nat.lt_of_lt_of_le hscope hstate.known_le
  split
  next symbol scopes hdeclare =>
    obtain ⟨table, storage, frame, htable, -, hallot, -, rfl⟩ := Scopes.declare_eq_ok hdeclare
    have hframe : frame ≤ table.frame + 2 := by
      rcases Scopes.allot_eq_ok hallot with ⟨-, -, rfl⟩ | ⟨-, -, -, rfl⟩ | ⟨-, -, -, rfl⟩ <;> omega
    exact .setThen (.pure (hstate.set (List.mem_of_getElem? htable) hframe))
  next stop hdeclare =>
    apply Copes.throw
    rintro cause hcause
    cases stop with
    | diagnosis found => cases hcause
    | breakdown found =>
        cases hcause
        obtain ⟨hoverflow, table, hmem, hlarge⟩ := Scopes.declare_eq_breakdown hknown hdeclare
        exact ⟨hoverflow, hstate.addressLimit_le hmem (by omega)⟩

theorem reserve {scope : ScopeId} (hscope : scope < known) (bytes : Nat) :
    Sturdy total known (spare + bytes) spare (Parser.reserve scope bytes) := by
  apply getThen
  intro state hstate
  have hknown := Nat.lt_of_lt_of_le hscope hstate.known_le
  split
  next value scopes hchange =>
    rw [map_eq_ok] at hchange
    obtain ⟨reserved, hreserve, hsame⟩ := hchange
    cases hsame
    obtain ⟨table, htable, -, rfl⟩ := Scopes.reserve_eq_ok hreserve
    exact .setThen (.pure (hstate.set (List.mem_of_getElem? htable) (Nat.le_refl _)))
  next cause hchange =>
    apply Copes.throw
    rintro _ ⟨⟩
    obtain ⟨hoverflow, table, hmem, hlarge⟩ :=
      Scopes.reserve_eq_error hknown (map_eq_error.mp hchange)
    exact ⟨hoverflow, hstate.addressLimit_le hmem hlarge⟩

theorem resolve (name : String) (location : Location) :
    Sturdy total known spare spare (Parser.resolve name location) := by
  apply getThen
  intro state hstate
  have hknown := Nat.lt_of_lt_of_le hstate.scope_lt hstate.known_le
  split
  · exact .pure hstate
  next stop hlookup =>
    apply Copes.throw
    rintro cause hcause
    cases stop with
    | diagnosis found => cases hcause
    | breakdown found => exact absurd hlookup (Scopes.lookup_eq_breakdown hknown)

/-! ### Expressions -/

variable {nested : Parser Expr}

/-- Operators and their operands take no room in the frames. -/
theorem operatorTail {operand : Parser Expr} (h : Sturdy total known spare spare operand)
    (operators : List (Mark × BinaryOp)) (start : Location) (count : Nat) (left : Expr) :
    Sturdy total known spare spare (Parser.operatorTail operand operators start count left) := by
  induction count generalizing left with
  | zero => exact pure _
  | succ count ih =>
      apply peek.bind
      intro token
      split
      · exact next.bind fun _ => h.bind fun right => scope.bind fun _ => last.bind fun _ =>
          (built _).bind fun whole => ih whole
      · exact pure _

theorem operatorLevel {operand : Parser Expr} (h : Sturdy total known spare spare operand)
    (operators : List (Mark × BinaryOp)) :
    Sturdy total known spare spare (Parser.operatorLevel operand operators) :=
  peekLocation.bind fun start => h.bind fun left => bound.bind fun count =>
    operatorTail h operators start count left

/-- A call takes no room in the frames. -/
theorem call (h : Sturdy total known spare spare nested) (name : String) (start : Location) :
    Sturdy total known spare spare (Parser.call nested name start) := by
  apply (resolve name start).bind
  intro function
  split
  next result parameters _ =>
    have hrest : ∀ arguments : List Expr, Sturdy total known spare spare (do
        Parser.built (Expr.called (← Parser.scope) (.span start (← Parser.last)) function result
          parameters arguments)) := fun arguments =>
      scope.bind fun _ => last.bind fun _ => built _
    apply (expect _).bind
    intro _
    apply (optional _).bind
    intro _
    apply ite ((pure _).bind hrest)
    exact bound.bind fun count => (separated h count).bind fun arguments =>
      (expect _).bind fun _ => (pure arguments).bind hrest
  next => exact failAt _ _

theorem use (name : String) (location : Location) :
    Sturdy total known spare spare (Parser.use name location) :=
  (resolve name location).bind fun _ => ite (failAt _ _) (scope.bind fun _ => pure _)

theorem literal (make : Note → Expr) (type : Ty) (location : Location) :
    Sturdy total known spare spare (Parser.literal make type location) :=
  scope.bind fun _ => pure _

/-- Names, literals and parentheses take no room in the frames. -/
theorem primary (h : Sturdy total known spare spare nested) :
    Sturdy total known spare spare (Parser.primary nested) := by
  apply next.bind
  rintro ⟨token, location⟩
  cases token with
  | integer value => exact literal _ _ _
  | character byte => exact literal _ _ _
  | string bytes => exact literal _ _ _
  | identifier name => exact peek.bind fun _ => ite (call h _ _) (use _ _)
  | mark m =>
      cases m with
      | openParen => exact h.bind fun _ => (expect _).bind fun _ => pure _
      | _ => exact fail _
  | _ => exact fail _

theorem trailingSteps (start : Location) (count : Nat) (operand : Expr) :
    Sturdy total known spare spare (Parser.trailingSteps start count operand) := by
  induction count generalizing operand with
  | zero => exact pure _
  | succ count ih =>
      apply peek.bind
      intro token
      split
      · exact next.bind fun _ => scope.bind fun _ => last.bind fun _ => (built _).bind fun whole =>
          ih whole
      · exact pure _

theorem trailing (h : Sturdy total known spare spare nested) :
    Sturdy total known spare spare (Parser.trailing nested) :=
  peekLocation.bind fun start => (primary h).bind fun operand => bound.bind fun count =>
    trailingSteps start count operand

theorem applyLeading (op : UnaryOp) (start : Location) (operand : Expr) :
    Sturdy total known spare spare (Parser.applyLeading op start operand) := by
  apply scope.bind
  intro here
  apply last.bind
  intro finish
  cases op <;> exact built _

/-- Leading operators take no room in the frames. -/
theorem leading (h : Sturdy total known spare spare nested) (count : Nat) :
    Sturdy total known spare spare (Parser.leading nested count) := by
  induction count with
  | zero => exact fail _
  | succ count ih =>
      apply peekLocation.bind
      intro start
      apply peek.bind
      intro token
      split
      · exact next.bind fun _ => ih.bind fun operand => applyLeading _ start operand
      · exact trailing h

theorem operators (h : Sturdy total known spare spare nested) (count : Nat) :
    Sturdy total known spare spare (Parser.operators nested count) := by
  have hlevels : ∀ (levels : List (List (Mark × BinaryOp))) (operand : Parser Expr),
      Sturdy total known spare spare operand →
        Sturdy total known spare spare (levels.foldl Parser.operatorLevel operand) := by
    intro levels
    induction levels with
    | nil => exact fun _ h => h
    | cons level levels ih => exact fun operand h => ih _ (operatorLevel h level)
  exact hlevels _ _ (leading h count)

theorem expressionWithin (count : Nat) :
    Sturdy total known spare spare (Parser.expressionWithin count) := by
  induction count with
  | zero => exact fail _
  | succ count ih =>
      apply peekLocation.bind
      intro start
      apply (operators ih _).bind
      intro target
      exact (optional _).bind fun _ => ite
        (ih.bind fun value => scope.bind fun _ => last.bind fun _ => built _) (pure _)

/-- An expression copes wherever there is room, and leaves all of it. -/
theorem expression : Sturdy total known spare spare Parser.expression :=
  bound.bind fun count => expressionWithin count

/-! ### Statements -/

theorem initialValue (external : Bool) (type : Ty) (name : Located String) :
    Sturdy total known spare spare (Parser.initialValue external type name) := by
  apply expression.bind
  intro value
  have hrest : Sturdy total known spare spare (do
      Parser.bindValue type value
      if (← Parser.scope) = globalScope ∧ ¬ value.isInitializer then
        Parser.failAt (.notConstant name.value) value.location
      return value) :=
    (bindValue type value).bind fun _ => scope.bind fun _ =>
      ite ((failAt _ _).bind fun _ => pure _) (pure _)
  exact ite ((fail _).bind fun _ => hrest) hrest

theorem declaration : Sturdy total known spare spare Parser.declaration := by
  apply (optional _).bind
  intro external
  apply takes_type.bind
  intro type
  apply takes_identifier.bind
  intro name
  have hdeclare : ∀ initial : Option Expr, Sturdy total known (spare + 2) spare
      (do return ⟨← Parser.declare (← Parser.scope) name type external, initial⟩ :
        Parser Declaration) := fun initial =>
    scopeThen fun here hhere => (declare hhere name type external).bind fun _ => pure _
  have hrest : Sturdy total known (spare + 2) spare (do
      let initial ←
        if ← Parser.optional (.mark .assign) then
          some <$> Parser.initialValue external type name
        else Pure.pure none
      return ⟨← Parser.declare (← Parser.scope) name type external, initial⟩ :
      Parser Declaration) :=
    (optional _).bind fun _ => ite
      ((map some (initialValue external type name)).bind hdeclare) ((pure none).bind hdeclare)
  exact ite ((requireVariable type name).bind fun _ => hrest) hrest

theorem condition : Sturdy total known spare spare Parser.condition :=
  (expect _).bind fun _ => expression.bind fun _ => (expect _).bind fun _ =>
    (checked _).bind fun _ => pure _

theorem returnedValue : Sturdy total known spare spare Parser.returnedValue := by
  apply get.bind
  intro state
  apply (optional _).bind
  intro found
  apply ite
  · exact ite ((fail _).bind fun _ => pure none) (pure none)
  · apply expression.bind
    intro value
    have hrest : Sturdy total known spare spare (do
        Parser.bindValue (state.result.getD .void) value
        return some value) := (bindValue _ value).bind fun _ => pure _
    exact (expect _).bind fun _ => ite ((failAt _ _).bind fun _ => hrest) hrest

theorem expressionStatement : Sturdy total known spare spare Parser.expressionStatement := by
  apply expression.bind
  intro value
  exact (expect _).bind fun _ => ite ((checked _).bind fun _ => pure _) (pure _)

theorem blockRest {statement : Parser Statement}
    (h : Sturdy total known spare spare statement) (count : Nat) :
    Sturdy total known spare spare (Parser.blockRest statement count) := by
  induction count with
  | zero => exact fail _
  | succ count ih =>
      have hrest : ∀ first : Statement, Sturdy total known spare spare (do
          return first :: (← Parser.blockRest statement count)) := fun first =>
        ih.bind fun rest => pure _
      apply (optional _).bind
      intro closed
      apply ite (pure _)
      apply peek.bind
      intro token
      apply ite
      · exact declaration.bind fun _ => (expect _).bind fun _ => (pure _).bind hrest
      · exact h.bind hrest

theorem enterScope {parent : ScopeId} (hparent : parent < known) {state : ParseState}
    (hstate : Room total known spare state) :
    Copes total (Parser.enterScope parent) state fun id later =>
      known ≤ id ∧ Room total (id + 1) spare later := by
  have hknown := Nat.lt_of_lt_of_le hparent hstate.known_le
  have henter := Scopes.enter_of_known (List.getElem?_eq_getElem hknown)
  apply Copes.getThen
  simp only [henter]
  obtain ⟨hle, hroom⟩ := hstate.enter henter
  exact .setThen (.pure ⟨hle, hroom⟩)

/-- Another known scope becomes the innermost one. -/
theorem moveTo {change : ParseState → ParseState} {state : ParseState}
    (hstate : Room total more spare state) (hscopes : (change state).scopes = state.scopes)
    (htokens : (change state).tokens = state.tokens) (hscope : (change state).scope < known)
    (hle : known ≤ more) :
    Copes total (modify change) state fun _ => Room total known spare :=
  .modify (hstate.moveTo hscopes htokens hscope hle)

theorem block {statement : Parser Statement}
    (h : ∀ {known spare : Nat}, Sturdy total known spare spare statement) :
    Sturdy total known spare spare (Parser.block statement) := by
  apply (expect _).bind
  intro _
  apply last.bind
  intro start
  apply scopeThen
  intro outer houter state hstate
  apply (enterScope houter hstate).bind
  rintro inner entered ⟨hle, hentered⟩
  apply (moveTo hentered rfl rfl (Nat.lt_succ_self inner) (Nat.le_refl _)).bind
  intro _ moved hmoved
  apply (bound moved hmoved).bind
  intro count counted hcounted
  apply (blockRest h count counted hcounted).bind
  intro body finished hfinished
  apply (moveTo hfinished rfl rfl houter (Nat.le_succ_of_le hle)).bind
  exact fun _ later hlater => (last.bind fun _ => pure _) later hlater

theorem statementWithin (count : Nat) :
    Sturdy total known spare spare (Parser.statementWithin count) := by
  induction count generalizing known spare with
  | zero => exact fail _
  | succ count ih =>
      apply peek.bind
      intro token
      split
      · exact (expect _).bind fun _ => last.bind fun _ => returnedValue.bind fun _ =>
          scope.bind fun _ => pure _
      · exact (expect _).bind fun _ => last.bind fun _ => condition.bind fun _ => ih.bind fun _ =>
          (optional _).bind fun _ => ite (ih.bind fun _ => pure _) (pure _)
      · exact (expect _).bind fun _ => last.bind fun _ => condition.bind fun _ => ih.bind fun _ =>
          pure _
      · exact (block ih).bind fun _ => pure _
      · exact expressionStatement

theorem statement : Sturdy total known spare spare Parser.statement :=
  bound.bind fun count => statementWithin count

/-! ### Programs -/

theorem parameter {scope : ScopeId} (hscope : scope < known) :
    Sturdy total known spare spare (Parser.parameter scope) := by
  apply takes_type.bind
  intro type
  apply takes_identifier.bind
  intro name
  exact (requireVariable type name).bind fun _ => (declare hscope name type false).bind fun _ =>
    pure type

/-- With the parentheses there are tokens for the bytes of the return address, too. -/
theorem functionRest {result : Ty} {name : Located String} {scope : ScopeId} (parameters : List Ty)
    (hle : known ≤ scope) (hglobal : globalScope < known) {state : ParseState}
    (hstate : Room total (scope + 1) (spare + 3) state) :
    Copes total (Parser.functionRest result name scope parameters) state fun _ =>
      Room total known spare := by
  have hscope := Nat.lt_succ_self scope
  have hinside : globalScope < scope + 1 := Nat.lt_succ_of_lt (Nat.lt_of_lt_of_le hglobal hle)
  apply (takes_expect _ state hstate).bind
  intro _ closed hclosed
  apply (reserve hscope returnAddressSize closed hclosed).bind
  intro _ reserved hreserved
  apply (declare hinside name _ false reserved hreserved).bind
  intro symbol declared hdeclared
  apply (moveTo hdeclared rfl rfl hscope (Nat.le_refl _)).bind
  intro _ moved hmoved
  apply (block statement moved hmoved).bind
  intro read later hlater
  apply (moveTo hlater rfl rfl hglobal (Nat.le_succ_of_le hle)).bind
  exact fun _ _ hroom => .pure hroom

theorem function : Sturdy total known spare spare Parser.function := by
  apply takes_type.bind
  intro result
  apply takes_identifier.bind
  intro name
  apply (takes_expect _).bind
  intro _ state hstate
  have hglobal : globalScope < known := Nat.lt_of_le_of_lt (Nat.zero_le _) hstate.scope_lt
  apply (enterScope hglobal hstate).bind
  rintro scope entered ⟨hle, hentered⟩
  apply (peek entered hentered).bind
  intro token peeked hpeeked
  split
  · exact functionRest [] hle hglobal hpeeked
  · apply (bound peeked hpeeked).bind
    intro count counted hcounted
    apply (separated (parameter (Nat.lt_succ_self scope)) count counted hcounted).bind
    exact fun parameters _ hlater => functionRest parameters hle hglobal hlater

theorem item : Sturdy total known spare spare Parser.item := by
  apply get.bind
  intro state
  apply ite
  · exact function.bind fun defined => pure _
  · exact declaration.bind fun declared => (expect _).bind fun _ => pure _

theorem items (count : Nat) : Sturdy total known spare spare (Parser.items count) := by
  induction count with
  | zero => exact pure _
  | succ count ih =>
      apply peek.bind
      intro token
      exact ite (pure _) (item.bind fun first => ih.bind fun rest => pure _)

theorem program : Sturdy total known spare spare Parser.program := by
  apply bound.bind
  intro count
  apply (items count).bind
  intro list
  apply get.bind
  intro state
  split
  · exact ite (pure list) (fail _)
  · exact fail _

end Sturdy

/-- Before anything is read there is room for all tokens. -/
theorem room_initial (tokens : List (Located Token)) (last : Location) :
    Room tokens.length 1 0 ⟨tokens, tokens.length, last, .initial, globalScope, none, []⟩ where
  known_le := Nat.le_refl _
  scope_lt := Nat.one_pos
  frames table hmem := by
    rw [List.mem_singleton.mp hmem]
    exact Nat.le_of_eq (Nat.zero_add _)

end Parser

/-- Reading breaks down only over byte counts, and only if there are as many tokens as the address
space has bytes. -/
theorem Program.breakdown_of_ofTokens {tokens : List (Located Token)} {cause : Breakdown}
    (h : Program.ofTokens tokens = .error (.breakdown cause)) :
    cause = .overflow ∧ addressLimit ≤ tokens.length := by
  have hcopes := Parser.Sturdy.program _ (Parser.room_initial tokens
    (tokens.head?.elim (Location.startOf "<input>") (·.location)))
  apply hcopes.1
  unfold ofTokens at h
  simp only at h
  split at h
  · cases h
  next stop hrun =>
    cases h
    exact hrun

end AccumulatorC
