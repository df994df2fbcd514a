import AccumulatorC.Program.Typing
import AccumulatorC.Proofs.Program.Nodes
import AccumulatorC.Proofs.Program.Term

/-!
# Places of constructs

The place of something that is read from tokens is that of a token, or it goes from the first to the
last of the tokens that spell an expression. When the parts of an expression have such places and the
expression is given one, its warnings and the error that it may have are at such places, too.
-/

namespace AccumulatorC

/-! ## Spans of tokens -/

/-- Tokens that spell an expression. -/
def IsTerm (tokens : List Token) : Prop := ∃ t : Term, t.Spelling loosestLevel tokens

/-- Whatever level a term is spelled at, its tokens spell an expression. -/
theorem Term.Spelling.isTerm {t : Term} {level : Nat} {tokens : List Token}
    (h : t.Spelling level tokens) : IsTerm tokens := ⟨t, h.mono h.le (Nat.le_refl _)⟩

/-- What has a place of its own: a token, and tokens that spell an expression. -/
def IsConstruct (tokens : List Token) : Prop := tokens.length = 1 ∨ IsTerm tokens

/-- A location goes from the first to the last of tokens of a kind. -/
inductive Location.SpansOf (kind : List Token → Prop) : Location → List (Located Token) → Prop
  | intro {front part later : List (Located Token)} {first last : Located Token}
      (hkind : kind (part.map (·.value))) (hfirst : part.head? = some first)
      (hlast : part.getLast? = some last) :
      SpansOf kind (.span first.location last.location) (front ++ part ++ later)

/-- A location goes from the first to the last token of an expression. -/
abbrev Location.SpansTerm (l : Location) (tokens : List (Located Token)) : Prop :=
  l.SpansOf IsTerm tokens

/-- A location goes from the first to the last token of a construct. -/
abbrev Location.Spans (l : Location) (tokens : List (Located Token)) : Prop :=
  l.SpansOf IsConstruct tokens

section SpansOf

variable {kind other : List Token → Prop} {l : Location} {tokens : List (Located Token)}

/-- The kind of tokens that a location spans can be widened. -/
theorem Location.SpansOf.mono (h : l.SpansOf kind tokens) (himp : ∀ part, kind part → other part) :
    l.SpansOf other tokens := by
  obtain ⟨hkind, hfirst, hlast⟩ := h
  exact .intro (himp _ hkind) hfirst hlast

theorem Location.SpansOf.spans (h : l.SpansTerm tokens) : l.Spans tokens := h.mono fun _ => .inr

/-- The location of a token spans it. -/
theorem Location.spansOf_of_mem {token : Located Token} (h : token ∈ tokens)
    (hkind : kind [token.value]) : token.location.SpansOf kind tokens := by
  obtain ⟨front, later, rfl⟩ := List.append_of_mem h
  rw [← List.singleton_append, ← List.append_assoc]
  exact .intro hkind rfl rfl

end SpansOf

/-! ## What errors are about -/

/-- What an error is about: the token that it names, the expression whose form or type is wrong, or
else the token that was taken last. -/
def ParseError.IsAbout : ParseError → List Token → Prop
  | .unexpectedToken _ found, tokens => tokens = [found]
  | .voidVariable name, tokens | .notFunction name, tokens | .functionValue name, tokens
  | .scope (.redeclaration name _), tokens | .scope (.undeclared name), tokens =>
      tokens = [.identifier name]
  | .notConstant _, tokens | .arity _ _ _, tokens | .derefNonPointer _, tokens
  | .notAssignable, tokens | .notAddressable, tokens | .voidValue, tokens | .returnInVoid, tokens
  | .type _, tokens => IsTerm tokens
  | .missingToken _, tokens | .expectedIdentifier, tokens | .expectedType, tokens
  | .expectedExpression, tokens | .unexpectedEnd, tokens | .externalInitializer _, tokens
  | .missingReturnValue _, tokens | .noMain, tokens => tokens.length = 1

/-- Errors are about constructs. -/
theorem ParseError.IsAbout.isConstruct {cause : ParseError} {tokens : List Token}
    (h : cause.IsAbout tokens) : IsConstruct tokens := by
  cases cause with
  | unexpectedToken | voidVariable | notFunction | functionValue =>
      exact .inl (congrArg List.length h)
  | scope cause => cases cause <;> exact .inl (congrArg List.length h)
  | notConstant | arity | derefNonPointer | notAssignable | notAddressable | voidValue
  | returnInVoid | type => exact .inr h
  | _ => exact .inl h

/-! ## Places in a program -/

mutual

/-- All places in an expression are good. -/
def Expr.Lies (good : Location → Prop) : Expr → Prop
  | .number note _ => good note.location
  | .string note _ => good note.location
  | .name note _ => good note.location
  | .assign note target value => good note.location ∧ target.Lies good ∧ value.Lies good
  | .binary note _ left right => good note.location ∧ left.Lies good ∧ right.Lies good
  | .unary note _ operand => good note.location ∧ operand.Lies good
  | .call note _ arguments => good note.location ∧ Expr.AllLie good arguments

/-- All places in expressions are good. -/
def Expr.AllLie (good : Location → Prop) : List Expr → Prop
  | [] => True
  | e :: rest => e.Lies good ∧ Expr.AllLie good rest

end

/-- The places that a declaration is reported at are good. -/
structure Declaration.Lies (good : Location → Prop) (declared : Declaration) : Prop where
  symbol : good declared.symbol.location
  initial : ∀ value ∈ declared.initial, value.Lies good

mutual

/-- The places that a statement is reported at are good. -/
def Statement.Lies (good : Location → Prop) : Statement → Prop
  | .declaration declared => declared.Lies good
  | .expression value => value.Lies good
  | .returning value _ location => good location ∧ ∀ given ∈ value, given.Lies good
  | .branch condition yes no location =>
      good location ∧ condition.Lies good ∧ yes.Lies good ∧
        match no with
        | some no => no.Lies good
        | none => True
  | .loop condition body location => good location ∧ condition.Lies good ∧ body.Lies good
  | .block _ body _ => Statement.AllLie good body

/-- The places that statements are reported at are good. -/
def Statement.AllLie (good : Location → Prop) : List Statement → Prop
  | [] => True
  | statement :: rest => statement.Lies good ∧ Statement.AllLie good rest

end

/-- The places that an item is reported at are good. -/
def Item.Lies (good : Location → Prop) : Item → Prop
  | .global declared => declared.Lies good
  | .function defined => good defined.symbol.location ∧ Statement.AllLie good defined.body

/-- The place that a statement has of its own: that of its keyword, or of the name it declares. -/
def Statement.place? : Statement → Option Location
  | .declaration declared => some declared.symbol.location
  | .returning _ _ location | .branch _ _ _ location | .loop _ _ location => some location
  | .expression _ | .block _ _ _ => none

/-- A location is the place of something in a program: of an expression, of a statement with a place
of its own or of the name of an item. -/
inductive Program.HasPlace (program : Program) : Location → Prop
  | node {e : Expr} (h : e ∈ program.nodes) : HasPlace program e.location
  | statement {statement : Statement} {location : Location} (h : statement ∈ program.statements)
      (hplace : statement.place? = some location) : HasPlace program location
  | item {item : Item} (h : item ∈ program.items) : HasPlace program item.symbol.location

section Lies

variable {good : Location → Prop}

mutual

/-- An expression lies well if the places of all its parts are good. -/
theorem Expr.lies_of_nodes : ∀ e : Expr, (∀ node ∈ e.nodes, good node.location) → e.Lies good
  | .number _ _, h | .string _ _, h | .name _ _, h => h _ List.mem_cons_self
  | .assign _ target value, h => by
      obtain ⟨hown, hparts⟩ := List.forall_mem_cons.mp h
      obtain ⟨htarget, hvalue⟩ := List.forall_mem_append.mp hparts
      exact ⟨hown, target.lies_of_nodes htarget, value.lies_of_nodes hvalue⟩
  | .binary _ _ left right, h => by
      obtain ⟨hown, hparts⟩ := List.forall_mem_cons.mp h
      obtain ⟨hleft, hright⟩ := List.forall_mem_append.mp hparts
      exact ⟨hown, left.lies_of_nodes hleft, right.lies_of_nodes hright⟩
  | .unary _ _ operand, h => by
      obtain ⟨hown, hoperand⟩ := List.forall_mem_cons.mp h
      exact ⟨hown, operand.lies_of_nodes hoperand⟩
  | .call _ _ arguments, h => by
      obtain ⟨hown, harguments⟩ := List.forall_mem_cons.mp h
      exact ⟨hown, Expr.allLie_of_nodes arguments harguments⟩

theorem Expr.allLie_of_nodes : ∀ list : List Expr,
    (∀ node ∈ Expr.allNodes list, good node.location) → Expr.AllLie good list
  | [], _ => trivial
  | e :: rest, h => by
      obtain ⟨hfirst, hrest⟩ := List.forall_mem_append.mp h
      exact ⟨e.lies_of_nodes hfirst, Expr.allLie_of_nodes rest hrest⟩

end

mutual

theorem Expr.Lies.mono {other : Location → Prop} (himp : ∀ l, good l → other l) :
    ∀ {e : Expr}, e.Lies good → e.Lies other
  | .number _ _, h | .string _ _, h | .name _ _, h => himp _ h
  | .assign _ _ _, ⟨hown, htarget, hvalue⟩ =>
      ⟨himp _ hown, htarget.mono himp, hvalue.mono himp⟩
  | .binary _ _ _ _, ⟨hown, hleft, hright⟩ => ⟨himp _ hown, hleft.mono himp, hright.mono himp⟩
  | .unary _ _ _, ⟨hown, hoperand⟩ => ⟨himp _ hown, hoperand.mono himp⟩
  | .call _ _ _, ⟨hown, harguments⟩ => ⟨himp _ hown, harguments.mono himp⟩

theorem Expr.AllLie.mono {other : Location → Prop} (himp : ∀ l, good l → other l) :
    ∀ {list : List Expr}, Expr.AllLie good list → Expr.AllLie other list
  | [], _ => trivial
  | _ :: _, ⟨hfirst, hrest⟩ => ⟨hfirst.mono himp, hrest.mono himp⟩

end

theorem Expr.Lies.spans {e : Expr} {tokens : List (Located Token)} (h : e.Lies (·.SpansTerm tokens)) :
    e.Lies (·.Spans tokens) := h.mono fun _ => Location.SpansOf.spans

theorem Declaration.lies_of_places {declared : Declaration} (hsymbol : good declared.symbol.location)
    (h : ∀ node ∈ declared.initial.elim [] Expr.nodes, good node.location) : declared.Lies good := by
  refine ⟨hsymbol, fun value hvalue => value.lies_of_nodes ?_⟩
  rwa [Option.mem_def.mp hvalue] at h

mutual

/-- A statement lies well if the places of its expressions and those of its parts are good. -/
theorem Statement.lies_of_places : ∀ statement : Statement,
    (∀ node ∈ statement.nodes, good node.location) →
    (∀ part ∈ statement.parts, ∀ location ∈ part.place?, good location) → statement.Lies good
  | .declaration declared, hnodes, hparts =>
      Declaration.lies_of_places (hparts _ List.mem_cons_self _ rfl) hnodes
  | .expression value, hnodes, _ => value.lies_of_nodes hnodes
  | .returning none scope location, _, hparts =>
      ⟨hparts _ List.mem_cons_self _ rfl, fun _ hmem => nomatch hmem⟩
  | .returning (some value) scope location, hnodes, hparts =>
      ⟨hparts _ List.mem_cons_self _ rfl, fun _ hmem =>
        Option.some.inj hmem ▸ value.lies_of_nodes hnodes⟩
  | .branch condition yes none location, hnodes, hparts => by
      obtain ⟨hown, hparts⟩ := List.forall_mem_cons.mp hparts
      obtain ⟨hyesParts, -⟩ := List.forall_mem_append.mp hparts
      obtain ⟨hnodes, -⟩ := List.forall_mem_append.mp hnodes
      obtain ⟨hcondition, hyesNodes⟩ := List.forall_mem_append.mp hnodes
      exact ⟨hown _ rfl, condition.lies_of_nodes hcondition,
        yes.lies_of_places hyesNodes hyesParts, trivial⟩
  | .branch condition yes (some no) location, hnodes, hparts => by
      obtain ⟨hown, hparts⟩ := List.forall_mem_cons.mp hparts
      obtain ⟨hyesParts, hnoParts⟩ := List.forall_mem_append.mp hparts
      obtain ⟨hnodes, hnoNodes⟩ := List.forall_mem_append.mp hnodes
      obtain ⟨hcondition, hyesNodes⟩ := List.forall_mem_append.mp hnodes
      exact ⟨hown _ rfl, condition.lies_of_nodes hcondition,
        yes.lies_of_places hyesNodes hyesParts, no.lies_of_places hnoNodes hnoParts⟩
  | .loop condition body location, hnodes, hparts => by
      obtain ⟨hown, hparts⟩ := List.forall_mem_cons.mp hparts
      obtain ⟨hcondition, hbody⟩ := List.forall_mem_append.mp hnodes
      exact ⟨hown _ rfl, condition.lies_of_nodes hcondition, body.lies_of_places hbody hparts⟩
  | .block _ body _, hnodes, hparts =>
      Statement.allLie_of_places body hnodes (List.forall_mem_cons.mp hparts).2

theorem Statement.allLie_of_places : ∀ body : List Statement,
    (∀ node ∈ Statement.allNodes body, good node.location) →
    (∀ part ∈ Statement.allParts body, ∀ location ∈ part.place?, good location) →
    Statement.AllLie good body
  | [], _, _ => trivial
  | statement :: rest, hnodes, hparts => by
      obtain ⟨hfirstNodes, hrestNodes⟩ := List.forall_mem_append.mp hnodes
      obtain ⟨hfirstParts, hrestParts⟩ := List.forall_mem_append.mp hparts
      exact ⟨statement.lies_of_places hfirstNodes hfirstParts,
        Statement.allLie_of_places rest hrestNodes hrestParts⟩

end

/-- The items of a program lie at its places. -/
theorem Program.items_lie (program : Program) :
    ∀ item ∈ program.items, item.Lies program.HasPlace := by
  intro item hitem
  have hnode : ∀ node ∈ item.nodes, program.HasPlace node.location := fun node hnode =>
    .node (List.mem_flatMap.mpr ⟨item, hitem, hnode⟩)
  cases item with
  | global declared => exact Declaration.lies_of_places (.item hitem) hnode
  | function defined =>
      refine ⟨.item hitem, Statement.allLie_of_places _ hnode fun part hpart location hplace => ?_⟩
      exact .statement (List.mem_flatMap.mpr ⟨_, hitem, hpart⟩) hplace

theorem Expr.Lies.location {e : Expr} (h : e.Lies good) : good e.location := by
  cases e with
  | number | string | name => exact h
  | assign | binary | unary | call => exact h.1

theorem Expr.allLie_iff {list : List Expr} : Expr.AllLie good list ↔ ∀ e ∈ list, e.Lies good := by
  induction list with
  | nil => simp [AllLie]
  | cons e rest ih => simp [AllLie, ih]

theorem Statement.allLie_iff {list : List Statement} :
    Statement.AllLie good list ↔ ∀ statement ∈ list, statement.Lies good := by
  induction list with
  | nil => simp [AllLie]
  | cons statement rest ih => simp [AllLie, ih]

/-! ## Rules -/

/-- The places of warnings are good. -/
def AllAt (good : Location → Prop) (warnings : List (Located Conversion)) : Prop :=
  ∀ warning ∈ warnings, good warning.location

/-- The error that a rule finds is about an expression at a good place, and what it gives meets a
postcondition. -/
def Checked.Within {α : Type} (good : Location → Prop) (result : Checked α) (post : α → Prop) :
    Prop :=
  match result with
  | .ok value => post value
  | .error cause => good cause.location ∧ cause.value.IsAbout = IsTerm

namespace Checked.Within

variable {α β : Type} {result : Checked α} {post : α → Prop}

/-- What two rules find lies well if it does for each. -/
theorem bind {next : α → Checked β} {last : β → Prop} (h : result.Within good post)
    (hnext : ∀ value, post value → (next value).Within good last) :
    (result >>= next).Within good last := by
  cases result with
  | ok value => exact hnext value h
  | error cause => exact h

/-- An error about types is at the place that is asked about. -/
theorem ofTypes {location : Location} (hlocation : good location) (result : Except TypeError α) :
    (Checked.ofTypes location result).Within good fun _ => True := by
  cases result with
  | ok value => trivial
  | error cause => exact ⟨hlocation, rfl⟩

theorem requireValue {e : Expr} (h : e.Lies good) :
    (Checked.requireValue e).Within good fun _ => True := by
  unfold Checked.requireValue
  split
  · exact ⟨h.location, rfl⟩
  · trivial

end Checked.Within

theorem allAt_noted {location : Location} (h : good location) (warning : Option Conversion) :
    AllAt good (Checked.noted warning location) := by
  intro found hfound
  obtain ⟨conversion, -, rfl⟩ := List.mem_map.mp hfound
  exact h

theorem AllAt.append {first second : List (Located Conversion)} (hfirst : AllAt good first)
    (hsecond : AllAt good second) : AllAt good (first ++ second) :=
  List.forall_mem_append.mpr ⟨hfirst, hsecond⟩

/-- Storing a value is reported at the value. -/
theorem Checked.bindValue_within (type : Ty) {value : Expr} (h : value.Lies good) :
    (Checked.bindValue type value).Within good (AllAt good) := by
  apply (Within.requireValue h).bind
  intro _ _
  apply (Within.ofTypes h.location _).bind
  intro warning _
  exact allAt_noted h.location warning

theorem Checked.bindValues_within (types : List Ty) {values : List Expr}
    (h : ∀ value ∈ values, value.Lies good) :
    (Checked.bindValues types values).Within good (AllAt good) := by
  fun_induction Checked.bindValues types values with
  | case1 type types value values ih =>
      apply (Checked.bindValue_within type (h value List.mem_cons_self)).bind
      intro first hfirst
      apply (ih fun other hmem => h other (List.mem_cons_of_mem _ hmem)).bind
      exact fun rest hrest => hfirst.append hrest
  | case2 => exact fun warning hmem => nomatch hmem

/-- What was built lies well, and so do the warnings that it gives rise to. -/
structure Noted.Lies (good : Location → Prop) (noted : Noted Expr) : Prop where
  value : noted.value.Lies good
  warnings : AllAt good noted.warnings

namespace Expr

variable {scope : ScopeId} {location : Location}

/-- An assignment is reported at its place or at one of its operands. -/
theorem assigned_within (hlocation : good location) {target value : Expr}
    (htarget : target.Lies good) (hvalue : value.Lies good) :
    (assigned scope location target value).Within good (Noted.Lies good) := by
  unfold assigned
  split
  · apply (Checked.Within.requireValue hvalue).bind
    intro _ _
    apply (Checked.Within.ofTypes hlocation _).bind
    intro warning _
    exact ⟨⟨hlocation, htarget, hvalue⟩, allAt_noted hlocation warning⟩
  · exact ⟨htarget.location, rfl⟩

theorem combined_within (hlocation : good location) (op : BinaryOp) {left right : Expr}
    (hleft : left.Lies good) (hright : right.Lies good) :
    (combined scope location op left right).Within good (Noted.Lies good) := by
  apply (Checked.Within.requireValue hleft).bind
  intro _ _
  apply (Checked.Within.requireValue hright).bind
  intro _ _
  apply (Checked.Within.ofTypes hlocation _).bind
  intro found _
  exact ⟨⟨hlocation, hleft, hright⟩, allAt_noted hlocation found.2⟩

theorem applied_within (hlocation : good location) (op : UnaryOp) {operand : Expr}
    (hoperand : operand.Lies good) :
    (applied scope location op operand).Within good (Noted.Lies good) := by
  have hnone : AllAt good [] := fun warning hmem => nomatch hmem
  have hkept : ∀ note : Note, note.location = location →
      (Checked.requireValue operand >>= fun _ => .ok (⟨.unary note op operand, []⟩ : Noted Expr)
        : Checked (Noted Expr)).Within good (Noted.Lies good) := by
    rintro note rfl
    apply (Checked.Within.requireValue hoperand).bind
    exact fun _ _ => ⟨⟨hlocation, hoperand⟩, hnone⟩
  cases op with
  | addressOf =>
      simp only [applied]
      split
      next => exact ⟨⟨hlocation, hoperand⟩, hnone⟩
      next => exact ⟨hlocation, rfl⟩
  | deref =>
      simp only [applied]
      split
      next => exact ⟨⟨hlocation, hoperand⟩, hnone⟩
      next => exact ⟨hlocation, rfl⟩
  | _ => exact hkept _ rfl

/-- A step is reported at its own place or at its target. -/
theorem stepped_within (hlocation : good location) (op : UnaryOp) {target : Expr}
    (htarget : target.Lies good) :
    (stepped scope location op target).Within good (Noted.Lies good) := by
  unfold stepped
  split
  · apply (applied_within hlocation op htarget).bind
    intro neighbour hneighbour
    apply (assigned_within hlocation htarget hneighbour.value).bind
    intro step hstep
    exact ⟨hstep.value, hneighbour.warnings.append hstep.warnings⟩
  · exact ⟨htarget.location, rfl⟩

theorem steppedAfter_within (hlocation : good location) (op back : UnaryOp) {target : Expr}
    (htarget : target.Lies good) :
    (steppedAfter scope location op back target).Within good (Noted.Lies good) := by
  apply (stepped_within hlocation op htarget).bind
  intro step hstep
  apply (applied_within hlocation back hstep.value).bind
  intro former hformer
  exact ⟨hformer.value, hstep.warnings.append hformer.warnings⟩

/-- A call is reported at its place or at one of its arguments. -/
theorem called_within (hlocation : good location) (function : Symbol) (result : Ty)
    (parameters : List Ty) {arguments : List Expr} (h : ∀ e ∈ arguments, e.Lies good) :
    (called scope location function result parameters arguments).Within good (Noted.Lies good) := by
  unfold called
  split
  · apply (Checked.bindValues_within parameters h).bind
    intro warnings hwarnings
    exact ⟨⟨hlocation, allLie_iff.mpr h⟩, hwarnings⟩
  · exact ⟨hlocation, rfl⟩

end Expr

end Lies

end AccumulatorC
