import AccumulatorC.Proofs.Lowering.Writing
import AccumulatorC.Proofs.Lowering.StatementLabels
import AccumulatorC.Proofs.Machine.LabelTexts
import AccumulatorC.Proofs.Program.Mentions

/-!
# What emitted code mentions

The code of an expression calls the functions and stores the string literals of the expression, in
the order of its evaluation, and between them it names nothing but labels inside the function and the
symbols that are visible there. A string literal is referred to in the code that stores it.
-/

namespace AccumulatorC

open Lowering

/-! ## Codes -/

/-- The call that a line makes, or the string that it stores. -/
def Line.mention? : Line → Option Mention
  | instr (.call name) => some (.call name)
  | data (.text bytes) => some (.text bytes)
  | _ => none

/-- The calls that a code makes and the strings that it stores, in order. -/
def shown (code : List Line) : List Mention := code.filterMap Line.mention?

@[simp] theorem shown_nil : shown [] = [] := rfl

@[simp] theorem shown_append (code rest : List Line) : shown (code ++ rest) = shown code ++ shown rest :=
  List.filterMap_append

theorem shown_cons_none {line : Line} (h : line.mention? = none) (rest : List Line) :
    shown (line :: rest) = shown rest := List.filterMap_cons_none h

/-- A code inside a function mentions what is given, puts dotted labels only, and refers to such and
to those that are named. It jumps to a dotted label or puts the label itself. -/
structure Exhibits (named : Label → Prop) (mentioned : List Mention) (code : List Line) : Prop where
  shown_eq : shown code = mentioned
  labels : ∀ l ∈ labels code, l.isDotted = true
  references : ∀ line ∈ code, ∀ l ∈ line.references, l.isDotted = true ∨ named l
  inside : ∀ line ∈ code, ∀ l ∈ line.references, l.isDotted = true →
    (∃ condition, line = .instr (.jump condition l)) ∨ l ∈ AccumulatorC.labels code

/-- A line that mentions nothing. -/
structure Line.Quiet (named : Label → Prop) (line : Line) : Prop where
  mention : line.mention? = none
  label : ∀ l, line.label? = some l → l.isDotted = true
  references : ∀ l ∈ line.references, l.isDotted = true ∨ named l
  inside : ∀ l ∈ line.references, l.isDotted = true →
    ∃ condition, line = .instr (.jump condition l)

/-- An operand in memory is found from the name of a symbol. -/
theorem Address.isSymbol_of_references {address : Address} {l : Label} (h : l ∈ address.references) :
    l.isSymbol = true := by
  cases address with
  | label name offset => rw [List.mem_singleton.mp h]; rfl
  | _ => cases h

section Codes

variable {named : Label → Prop} {mentioned more : List Mention} {code rest : List Line} {line : Line}

theorem Label.isDotted_of_isInner {l : Label} (h : l.isInner = true) : l.isDotted = true := by
  cases l <;> first | rfl | cases h

theorem Label.not_isInner_of_isSymbol {l : Label} (h : l.isSymbol = true) : ¬ l.isInner = true := by
  cases l <;> first | exact Bool.false_ne_true | cases h

theorem Label.isDotted_of_isSymbol {l : Label} (h : l.isSymbol = true) : l.isDotted = false := by
  cases l <;> first | rfl | cases h

theorem Line.Quiet.of_isOperation (h : line.isOperation = true) : line.Quiet named where
  mention := by
    cases line with
    | label => rfl
    | data => cases h
    | instr i => cases i <;> first | rfl | cases h
  label l hlabel := Label.isDotted_of_isInner (label_of_isOperation h hlabel)
  references l hl := .inl (Label.isDotted_of_isInner (references_of_isOperation h l hl))
  inside l hl _ := by
    have hinner := references_of_isOperation h l hl
    cases line with
    | label => cases hl
    | data => cases h
    | instr i =>
        cases i with
        | jump condition target => exact ⟨condition, by rw [List.mem_singleton.mp hl]⟩
        | setLabel => cases h
        | call => cases h
        | skip => cases List.mem_singleton.mp hl; cases hinner
        | setAddress r address => exact absurd hinner (Label.not_isInner_of_isSymbol (Address.isSymbol_of_references hl))
        | load r address => exact absurd hinner (Label.not_isInner_of_isSymbol (Address.isSymbol_of_references hl))
        | store address r => exact absurd hinner (Label.not_isInner_of_isSymbol (Address.isSymbol_of_references hl))
        | _ => cases hl

/-- Lines that mention nothing make a code that shows nothing. -/
theorem Exhibits.of_quiet (h : ∀ line ∈ code, line.Quiet named) : Exhibits named [] code where
  shown_eq := List.filterMap_eq_nil_iff.mpr fun line hmem => (h line hmem).mention
  labels l hl := (h _ (mem_labels.mp hl)).label l rfl
  references line hmem := (h line hmem).references
  inside line hmem l hl hdotted := .inl ((h line hmem).inside l hl hdotted)

/-- Codes behind each other show what each of them shows. -/
theorem Exhibits.append (h : Exhibits named mentioned code) (h' : Exhibits named more rest) :
    Exhibits named (mentioned ++ more) (code ++ rest) where
  shown_eq := by rw [shown_append, h.shown_eq, h'.shown_eq]
  labels l hl := by
    rw [labels_append] at hl
    exact (List.mem_append.mp hl).elim (h.labels l) (h'.labels l)
  references line hmem := (List.mem_append.mp hmem).elim (h.references line) (h'.references line)
  inside line hmem l hl hdotted := by
    rw [labels_append, List.mem_append]
    rcases List.mem_append.mp hmem with hmem | hmem
    · exact (h.inside line hmem l hl hdotted).imp_right .inl
    · exact (h'.inside line hmem l hl hdotted).imp_right .inr

end Codes

/-! ## Steps -/

namespace Lowering

variable {α β : Type} {named : Label → Prop} {mentioned more : List Mention}

/-- Whatever the step emits shows what is given. -/
def Tells (named : Label → Prop) (mentioned : List Mention) (step : Lowering α) : Prop :=
  ∀ state, Ensures step state fun _ code _ => Exhibits named mentioned code

/-- Every line that the step can write mentions nothing. -/
abbrev IsQuiet (named : Label → Prop) (step : Lowering α) : Prop :=
  step.Writes (Line.Quiet named) fun _ => True

theorem Operates.isQuiet {step : Lowering α} (h : step.Operates) : step.IsQuiet named :=
  h.mono (fun _ => .of_isOperation) fun _ => id

theorem IsQuiet.bind {first : Lowering α} {second : α → Lowering β} (h : first.IsQuiet named)
    (hsecond : ∀ value, (second value).IsQuiet named) : (first >>= second).IsQuiet named :=
  writes_bind.mpr (h.mono (fun _ => id) fun value _ => hsecond value)

/-- A step that only writes quiet lines shows nothing. -/
theorem IsQuiet.tells {step : Lowering α} (h : step.IsQuiet named) : Tells named [] step :=
  fun state => (h.ensures state).mono fun _ _ _ hlines => .of_quiet hlines.2

theorem Operates.tells {step : Lowering α} (h : step.Operates) : Tells named [] step :=
  h.isQuiet.tells

namespace Tells

variable {step : Lowering α} {next : α → Lowering β}

theorem bind (h : Tells named mentioned step) (hnext : ∀ value, Tells named more (next value)) :
    Tells named (mentioned ++ more) (step >>= next) := by
  intro state
  rw [ensures_bind]
  refine (h state).mono fun value code middle hcode => ?_
  exact (hnext value middle).mono fun _ rest after hrest => hcode.append hrest

/-- A step that tells nothing comes after. -/
theorem thenNone (h : Tells named mentioned step) (hnext : ∀ value, Tells named [] (next value)) :
    Tells named mentioned (step >>= next) := by
  have hwhole := h.bind hnext
  rwa [List.append_nil] at hwhole

/-- A step that tells nothing comes before. -/
theorem afterNone (h : Tells named [] step) (hnext : ∀ value, Tells named more (next value)) :
    Tells named more (step >>= next) := h.bind hnext

theorem visit {location : Location} {step : Lowering α} (h : Tells named mentioned step) :
    Tells named mentioned (Lowering.visit location >>= fun _ => step) :=
  afterNone (Operates.tells trivial) fun _ => h

theorem map {f : α → β} (h : Tells named mentioned step) : Tells named mentioned (f <$> step) := by
  intro state
  rw [ensures_map]
  exact h state

end Tells

/-! ## Memory -/

theorem Address.references_next {address following : Address}
    (h : address.next = .ok following) : following.references = address.references := by
  cases address with
  | label name offset =>
      obtain ⟨_, -, rfl⟩ := map_eq_ok.mp h
      rfl
  | stack offset =>
      obtain ⟨_, -, rfl⟩ := map_eq_ok.mp h
      rfl
  | indirect pair => cases h; rfl

/-- Lines that refer to what is named, and to no dotted label. -/
theorem quiet_of_references {i : Instr} (hmention : (Line.instr i).mention? = none)
    (hdotted : ∀ l ∈ i.references, l.isDotted = false) (h : ∀ l ∈ i.references, named l) :
    (Line.instr i).Quiet named where
  mention := hmention
  label l hlabel := by cases hlabel
  references l hl := .inr (h l hl)
  inside l hl hyes := by
    rw [hdotted l hl] at hyes
    cases hyes

theorem isQuiet_stepPair (address : Address) : (stepPair address).IsQuiet named := by
  cases address with
  | indirect pair => exact ⟨.of_isOperation rfl, trivial⟩
  | _ => trivial

/-- Two instructions, one for each byte, mention nothing if none of them does. -/
theorem isQuiet_bytes {address : Address} {first : Instr} {instr : Address → Instr}
    (hfirst : (Line.instr first).Quiet named)
    (hsecond : ∀ {other : Address}, other.references = address.references →
      (Line.instr (instr other)).Quiet named) :
    Lowering.IsQuiet named (do
      emit first
      stepPair address
      emit (instr (← lift address.next))) := by
  refine writes_bind.mpr ⟨hfirst, writes_bind.mpr ?_⟩
  refine (isQuiet_stepPair address).mono (fun _ => id) fun _ _ => writes_bind.mpr ?_
  rw [writes_lift]
  exact fun following hnext => ⟨hsecond (Address.references_next hnext), trivial⟩

/-- Loading mentions nothing, besides the label of the address. -/
theorem isQuiet_load {address : Address} (h : ∀ l ∈ address.references, named l) (r : Reg) :
    (load r address).IsQuiet named := by
  have hline : ∀ (r : Reg) {other : Address}, other.references = address.references →
      (Line.instr (.load r other)).Quiet named := by
    intro r other hsame
    refine quiet_of_references rfl
      (fun _ hl => Label.isDotted_of_isSymbol (Address.isSymbol_of_references hl)) ?_
    rwa [Instr.references, hsame]
  unfold load
  split
  · exact ⟨hline _ rfl, trivial⟩
  · exact isQuiet_bytes (hline _ rfl) (hline _)

theorem isQuiet_store {address : Address} (h : ∀ l ∈ address.references, named l) (r : Reg) :
    (store address r).IsQuiet named := by
  have hline : ∀ (r : Reg) {other : Address}, other.references = address.references →
      (Line.instr (.store other r)).Quiet named := by
    intro r other hsame
    refine quiet_of_references rfl
      (fun _ hl => Label.isDotted_of_isSymbol (Address.isSymbol_of_references hl)) ?_
    rwa [Instr.references, hsame]
  unfold store
  split
  · exact ⟨hline _ rfl, trivial⟩
  · exact isQuiet_bytes (hline _ rfl) (hline _)

end Lowering

/-! ## Names -/

/-- The label of a visible symbol that lives at one. -/
def Scopes.Names (scopes : Scopes) (l : Label) : Prop :=
  ∃ scope symbol, scopes.Visible scope symbol ∧
    (symbol.storage = .labelled ∨ symbol.storage = .external) ∧ l = .symbol symbol.name

section Expressions

variable {scopes : Scopes} {scope : ScopeId} {named : Label → Prop}

/-- A function that can be called lives at a label. -/
theorem Scopes.Visible.names_function (hwf : scopes.WellFormed) {symbol : Symbol}
    (h : scopes.Visible scope symbol) (hfunction : symbol.type.isFunction = true) :
    scopes.Names (.symbol symbol.name) := by
  refine ⟨scope, symbol, h, ?_, rfl⟩
  obtain ⟨table, -, -, hplace⟩ := h.places hwf
  unfold Scope.Places at hplace
  split at hplace
  next hstorage => exact .inl hstorage
  next offset hstorage =>
    cases htype : symbol.type <;> simp_all [Ty.isFunction, Ty.isScalar]
  next hstorage => exact .inr hstorage

/-- A symbol that is not found on the stack is found at its label. -/
theorem Scopes.Visible.writes_address {symbol : Symbol} (h : scopes.Visible scope symbol)
    (hnamed : ∀ l, scopes.Names l → named l) :
    (scopes.address symbol scope).Writes (Line.Quiet named) fun address =>
      ∀ l ∈ address.references, named l := by
  unfold Scopes.address
  rw [writes_bind, writes_lift]
  intro found hfound
  cases found with
  | some offset =>
      simp only [writes_bind, writes_get, writes_lift, writes_pure]
      intro _ distance _ l hl
      cases hl
  | none =>
      rw [writes_pure]
      intro l hl
      rw [List.mem_singleton.mp hl]
      exact hnamed _ ⟨scope, symbol, h, Scopes.stackOffset_eq_none h hfound, rfl⟩

/-! ## Expressions -/

theorem tells_lowerArguments {parameters : List Ty} {arguments : List Expr}
    (hlength : arguments.length = parameters.length)
    (h : ∀ argument ∈ arguments, Tells named argument.evaluated (argument.lower scopes)) :
    Tells named (Expr.allEvaluated arguments) (lowerArguments scopes parameters arguments) := by
  induction arguments generalizing parameters with
  | nil =>
      have hnone : lowerArguments scopes parameters [] = pure 0 := by
        cases parameters <;> rw [lowerArguments] <;> simp
      rw [hnone]
      exact Operates.tells trivial
  | cons argument arguments ih =>
      cases parameters with
      | nil => cases hlength
      | cons parameter parameters =>
          rw [lowerArguments, Expr.allEvaluated]
          refine (h argument List.mem_cons_self).bind fun r => ?_
          refine (Operates.coerce r _).tells.afterNone fun r' => ?_
          refine (Operates.save r').tells.afterNone fun _ => Tells.thenNone (ih ?_ ?_) ?_
          · exact Nat.succ.inj hlength
          · exact fun argument hmem => h argument (List.mem_cons_of_mem _ hmem)
          · exact fun rest => Operates.tells (writes_lift.mpr fun _ _ => trivial)

theorem tells_call {name : String} (hnamed : named (.symbol name)) :
    Tells named [.call name] (emit (.call name)) := by
  intro state
  refine ensures_emit.mpr ⟨rfl, fun l hl => ?_, fun line hmem l hl => ?_, fun line hmem l hl hdotted => ?_⟩
  · cases hl
  · rw [List.mem_singleton.mp hmem] at hl
    rw [List.mem_singleton.mp hl]
    exact .inr hnamed
  · rw [List.mem_singleton.mp hmem] at hl
    rw [List.mem_singleton.mp hl] at hdotted
    cases hdotted

theorem tells_finishCall {function : Symbol} (hnamed : named (.symbol function.name))
    (saved : List Reg) (pushed : Nat) :
    Tells named [.call function.name] (finishCall function saved pushed) := by
  rw [finishCall_eq]
  refine (tells_call hnamed).thenNone fun _ => Operates.tells ?_
  simp only [writes_ite, writes_bind, writes_emit, writes_shallow]
  exact ⟨fun _ => ⟨rfl, Operates.restore _ _⟩, fun _ => Operates.restore _ _⟩

theorem tells_lowerCall (hwf : scopes.WellFormed) (hnamed : ∀ l, scopes.Names l → named l)
    {note : Note} {function : Symbol} {arguments : List Expr}
    (h : (Expr.call note function arguments).WellFormed scopes scope)
    (harguments : ∀ argument ∈ arguments, Tells named argument.evaluated (argument.lower scopes)) :
    Tells named (Expr.call note function arguments).evaluated
      (lowerCall scopes function arguments) := by
  cases h with
  | call _ _ htype hvisible haccepts _ =>
      have hlength : arguments.length = function.parameters.length := by
        rw [Symbol.parameters_eq htype, haccepts.length_eq]
      have hname := hnamed _ (hvisible.names_function hwf (by rw [htype]; rfl))
      rw [Expr.evaluated]
      refine Operates.saveAll.tells.afterNone fun saved => ?_
      exact (tells_lowerArguments hlength harguments).bind fun pushed =>
        tells_finishCall hname saved pushed

/-- A string literal is stored where it is evaluated, and the address of its label is loaded. -/
theorem tells_string (note : Note) (bytes : List UInt8) :
    Tells named [.text bytes] ((Expr.string note bytes).lower scopes) := by
  intro state
  rw [Expr.lower]
  simp only [stringData, ensures_bind, ensures_visit, ensures_newLabel, ensures_emit, ensures_mark,
    ensures_line, ensures_pure, ensures_allocate]
  intro r _
  generalize state.labels.count .string = n
  refine ⟨rfl, ?_, ?_, ?_⟩
  · simp [Label.isDotted]
  · simp [Line.references, Instr.references, Data.references, Label.isDotted]
  · simp [Line.references, Instr.references, Data.references]

/-- What the code of an expression mentions. -/
theorem Expr.WellFormed.tells (hwf : scopes.WellFormed) (hnamed : ∀ l, scopes.Names l → named l)
    {e : Expr} (h : e.WellFormed scopes scope) : Tells named e.evaluated (e.lower scopes) := by
  induction h using Expr.WellFormed.alongLowering with
  | number h =>
      rw [Expr.lower]
      exact .visit (Operates.tells fun r => ⟨rfl, trivial⟩)
  | string h => exact tells_string _ _
  | name h =>
      obtain ⟨rfl, -, hvisible⟩ := h.of_name
      rw [Expr.lower]
      refine .visit (IsQuiet.tells (writes_bind.mpr ?_))
      refine (hvisible.writes_address hnamed).mono (fun _ => id) fun address haddress => ?_
      exact writes_bind.mpr fun r => (isQuiet_load haddress r).bind fun _ => trivial
  | @assignName note inner symbol value h hvalue ih =>
      have htarget : (Expr.name inner symbol).WellFormed scopes scope := by
        cases h with
        | assign _ _ _ _ _ htarget _ => exact htarget
      obtain ⟨rfl, -, hvisible⟩ := htarget.of_name
      rw [Expr.lower, Expr.evaluated, Expr.evaluated, List.append_nil]
      refine .visit (ih.thenNone fun r => (Operates.coerce r _).tells.thenNone fun r' => .visit ?_)
      refine IsQuiet.tells (writes_bind.mpr ?_)
      refine (hvisible.writes_address hnamed).mono (fun _ => id) fun address haddress => ?_
      exact (isQuiet_store haddress r').bind fun _ => trivial
  | @assignDeref note inner pointer value h hvalue hpointer ihvalue ihpointer =>
      rw [Expr.lower]
      refine .visit (ihvalue.bind fun r => (Operates.coerce r _).tells.afterNone fun r' => .visit ?_)
      refine ihpointer.thenNone fun pair => IsQuiet.tells ?_
      exact (isQuiet_store (fun l hl => by cases hl) r').bind fun _ => trivial
  | @binary note op left right h hleft hright ihleft ihright =>
      rw [Expr.lower, Expr.evaluated]
      refine .visit (ihleft.bind fun l => (Operates.coerce l _).tells.afterNone fun l' => ?_)
      exact ihright.thenNone fun r => (Operates.coerce r _).tells.thenNone fun r' =>
        (Operates.operate _ _ _ _).tells
  | @addressName note inner symbol h =>
      have hplace : (Expr.name inner symbol).WellFormed scopes scope := by
        cases h with
        | addressOf _ _ _ _ hplace => exact hplace
        | keeping hop => cases hop
      obtain ⟨rfl, -, hvisible⟩ := hplace.of_name
      rw [Expr.lower]
      refine .visit (IsQuiet.tells (writes_bind.mpr ?_))
      refine (hvisible.writes_address hnamed).mono (fun _ => id) fun address haddress => ?_
      refine writes_bind.mpr fun r => writes_bind.mpr ⟨?_, trivial⟩
      exact quiet_of_references rfl
        (fun _ hl => Label.isDotted_of_isSymbol (Address.isSymbol_of_references hl)) haddress
  | @addressDeref note inner pointer h hpointer ih =>
      rw [Expr.lower]
      exact .visit ih
  | @deref note operand h hoperand ih =>
      rw [Expr.lower]
      refine .visit (ih.thenNone fun pair => IsQuiet.tells (writes_bind.mpr fun r => ?_))
      exact (isQuiet_load (fun l hl => by cases hl) r).bind fun _ => trivial
  | @keeping note op operand h hoperand hop htype hvoid ih =>
      cases op with
      | addressOf => cases hop
      | deref => cases hop
      | plus =>
          rw [Expr.lower]
          exact .visit ih
      | negate =>
          rw [Expr.lower]
          exact .visit (ih.thenNone fun r => (Operates.negate r).tells)
      | increment =>
          rw [Expr.lower]
          exact .visit (ih.thenNone fun r =>
            (Operates.stepBy (fun _ => rfl) r _).tells.thenNone fun _ => Operates.tells trivial)
      | decrement =>
          rw [Expr.lower]
          exact .visit (ih.thenNone fun r =>
            (Operates.stepBy (fun _ => rfl) r _).tells.thenNone fun _ => Operates.tells trivial)
  | call h harguments ih =>
      rw [Expr.lower_call]
      refine .visit ((tells_lowerCall hwf hnamed h ih).thenNone fun result => ?_)
      cases result with
      | none => exact Operates.tells trivial
      | some r => exact Operates.tells trivial

end Expressions

/-! ## Statements -/

section Statements

variable {frame : Frame} {scope : ScopeId} {named : Label → Prop}

namespace Frame

theorem operates_settle : settle.Operates := by
  simp [settle]

theorem operates_giveBack (result : Option Reg) : (giveBack result).Operates := by
  cases result <;> trivial

theorem operates_compareZero (r : Reg) : (compareZero r).Operates := by
  unfold compareZero
  split
  · exact Operates.preservingAccumulator ⟨rfl, rfl, rfl, trivial⟩
  · exact writes_ite.mpr ⟨fun _ => ⟨rfl, trivial⟩,
      fun _ => Operates.preservingAccumulator ⟨rfl, rfl, trivial⟩⟩

theorem isQuiet_goToEnd (hexit : named (.exit frame.name)) (inner : ScopeId) :
    (frame.goToEnd inner).IsQuiet named := by
  have hjump : (Line.instr (.jump .always (.exit frame.name))).Quiet named :=
    quiet_of_references rfl (fun l hl => by rw [List.mem_singleton.mp hl]; rfl) fun l hl => by
      rw [List.mem_singleton.mp hl]
      exact hexit
  simp only [goToEnd, release, writes_bind, writes_lift, writes_ite, writes_emit, writes_pure]
  exact fun bytes _ => ⟨fun _ => ⟨.of_isOperation rfl, hjump, trivial⟩, fun _ => ⟨hjump, trivial⟩⟩

variable (hwf : frame.scopes.WellFormed) (hnamed : ∀ l, frame.scopes.Names l → named l)
include hwf hnamed

theorem tells_setInitial {declared : Declaration}
    (hvisible : frame.scopes.Visible scope declared.symbol)
    (hinitial : ∀ value, declared.initial = some value → value.WellFormed frame.scopes scope) :
    Tells named (declared.initial.elim [] Expr.evaluated) (frame.setInitial declared) := by
  cases hvalue : declared.initial with
  | none =>
      rw [setInitial, hvalue]
      exact Operates.tells trivial
  | some value =>
      have hvalue' := hinitial value hvalue
      rw [setInitial, hvalue]
      refine (hvalue'.tells hwf hnamed).thenNone fun r => ?_
      refine (Operates.coerce r _).tells.thenNone fun r' => IsQuiet.tells (writes_bind.mpr ?_)
      rw [hvalue'.note_scope]
      refine (hvisible.writes_address hnamed).mono (fun _ => id) fun address haddress => ?_
      exact (isQuiet_store haddress r').bind fun _ => trivial

theorem tells_discard {value : Expr} (h : value.WellFormed frame.scopes scope) :
    Tells named value.evaluated (frame.discard value) := by
  rw [discard_eq]
  refine Tells.thenNone ?_ fun result => (operates_giveBack result).tells
  cases value with
  | call note function arguments =>
      refine .visit (tells_lowerCall hwf hnamed h fun argument hmem => ?_)
      cases h with
      | call _ _ _ _ _ harguments => exact (harguments argument hmem).tells hwf hnamed
  | _ => exact (h.tells hwf hnamed).map

theorem tells_test {condition : Expr} (h : condition.WellFormed frame.scopes scope) :
    Tells named condition.evaluated (frame.test condition) := by
  rw [test_eq]
  exact (h.tells hwf hnamed).thenNone fun r =>
    (operates_compareZero r).tells.thenNone fun _ => Operates.tells trivial

theorem tells_leave (hexit : named (.exit frame.name)) {value : Option Expr}
    (h : ∀ given, value = some given → given.WellFormed frame.scopes scope) (inner : ScopeId) :
    Tells named (value.elim [] Expr.evaluated) (frame.leave value inner) := by
  rw [leave_eq]
  refine Tells.thenNone ?_ fun _ => (isQuiet_goToEnd hexit inner).tells
  cases value with
  | none => exact Operates.tells trivial
  | some given =>
      refine ((h given rfl).tells hwf hnamed).thenNone fun r => ?_
      refine (Operates.coerce r _).tells.thenNone fun r' => Operates.tells ?_
      exact writes_ite.mpr ⟨fun _ => ⟨rfl, trivial⟩, fun _ => trivial⟩

end Frame

theorem tells_lowerStatements {body : List Statement}
    (h : ∀ statement ∈ body,
      Tells named (statement.gather Expr.evaluated) (statement.lower frame)) :
    Tells named (Statement.gatherAll Expr.evaluated body) (lowerStatements frame body) := by
  induction body with
  | nil =>
      rw [lowerStatements]
      exact Operates.tells trivial
  | cons statement rest ih =>
      rw [lowerStatements, Statement.gatherAll]
      refine (h statement List.mem_cons_self).bind fun _ => ih fun other hmem => ?_
      exact h other (List.mem_cons_of_mem _ hmem)

theorem operates_reserve (bytes : Nat) : (reserve bytes).Operates :=
  writes_ite.mpr ⟨fun _ => ⟨rfl, trivial⟩, fun _ => trivial⟩

theorem operates_release (bytes : Nat) : (release bytes).Operates :=
  writes_ite.mpr ⟨fun _ => ⟨rfl, trivial⟩, fun _ => trivial⟩

/-- What the code of a statement mentions, whatever is executed of it. -/
theorem Statement.WellFormed.tells (hwf : frame.scopes.WellFormed)
    (hnamed : ∀ l, frame.scopes.Names l → named l) (hexit : named (.exit frame.name)) {result : Ty}
    {statement : Statement} (h : statement.WellFormed frame.scopes result scope) :
    Tells named (statement.gather Expr.evaluated) (statement.lower frame) := by
  have hsettle : ∀ {mentioned : List Mention} {step : Lowering Unit}, Tells named mentioned step →
      Tells named mentioned (step >>= fun _ => Frame.settle) := fun h =>
    h.thenNone fun _ => Frame.operates_settle.tells
  have hjump : ∀ condition family role n,
      Tells named [] (emit (.jump condition (.inner family role n))) :=
    fun _ _ _ _ => Operates.tells ⟨rfl, trivial⟩
  have hmark : ∀ family role n, Tells named [] (mark (.inner family role n)) :=
    fun _ _ _ => Operates.tells ⟨rfl, trivial⟩
  induction h with
  | declaration _ hvisible hinitial =>
      rw [Statement.lower, Statement.gather]
      exact hsettle (Frame.tells_setInitial hwf hnamed hvisible fun value hvalue =>
        (hinitial value hvalue).1)
  | expression hvalue _ =>
      rw [Statement.lower]
      exact hsettle (Frame.tells_discard hwf hnamed hvalue)
  | returning _ hvalue =>
      rw [Statement.lower, Statement.gather]
      exact .visit (hsettle (Frame.tells_leave hwf hnamed hexit
        (fun given hgiven => (hvalue given hgiven).1) _))
  | @branch scope condition yes no location hcondition _ hyes hno ihyes ihno =>
      have helse : Tells named (no.elim [] (Statement.gather Expr.evaluated))
          (lowerElse frame no) := by
        cases no with
        | none => exact Operates.tells trivial
        | some other => exact ihno other rfl
      rw [Statement.lower_branch, Statement.gather_branch]
      refine .visit ((Operates.newLabel _).tells.afterNone fun n => ?_)
      refine (Frame.tells_test hwf hnamed hcondition).bind fun _ => ?_
      refine (hjump _ _ _ _).afterNone fun _ => (hmark _ _ _).afterNone fun _ => ?_
      refine ihyes.bind fun _ => (hjump _ _ _ _).afterNone fun _ => (hmark _ _ _).afterNone fun _ => ?_
      exact helse.thenNone fun _ => hsettle (hmark _ _ _)
  | @loop scope condition body location hcondition _ hbody ih =>
      rw [Statement.lower, Statement.gather]
      refine .visit ((Operates.newLabel _).tells.afterNone fun n => ?_)
      refine (hmark _ _ _).afterNone fun _ => ?_
      refine (Frame.tells_test hwf hnamed hcondition).bind fun _ => ?_
      refine (hjump _ _ _ _).afterNone fun _ => (hmark _ _ _).afterNone fun _ => ?_
      exact ih.thenNone fun _ => (hjump _ _ _ _).thenNone fun _ => hsettle (hmark _ _ _)
  | @block scope inner table body location _ _ hbody ih =>
      rw [Statement.lower, Statement.gather]
      refine (Operates.tells (writes_lift.mpr fun _ _ => trivial)).afterNone fun size => ?_
      refine (operates_reserve size).tells.afterNone fun _ => ?_
      exact (tells_lowerStatements ih).thenNone fun _ => hsettle (operates_release size).tells

end Statements

/-! ## Functions -/

/-- The code of a function: its name, lines that show its body, its end, and lines behind that
neither mention nor put nor refer to anything. -/
def Function.Shown (scopes : Scopes) (function : Function) (code : List Line) : Prop :=
  ∃ body last, code = .label (.symbol function.symbol.name) ::
      (body ++ .label (.exit function.symbol.name) :: last) ∧
    Exhibits (fun l => l = .exit function.symbol.name ∨ scopes.Names l) function.evaluated body ∧
    ∀ line ∈ last, line.mention? = none ∧ line.label? = none ∧ line.references = []

/-- The code of a function shows the calls and the strings of its body, in order. -/
theorem Function.WellFormed.shown_lower {scopes : Scopes} (hwf : scopes.WellFormed)
    {function : Function} (h : function.WellFormed scopes) (state : LowerState) :
    Ensures (function.lower scopes) state fun _ code _ => function.Shown scopes code := by
  obtain ⟨result, types, table, -, -, -, hbody⟩ := h.signature
  have hreserve : ∀ size, Tells (fun l => l = .exit function.symbol.name ∨ scopes.Names l) []
      (reserve size) := fun size => (operates_reserve size).tells
  have hstatements : Tells (fun l => l = .exit function.symbol.name ∨ scopes.Names l)
      function.evaluated (lowerStatements
        ⟨scopes, function.symbol.name, function.symbol.resultSize, function.scope⟩
        function.body) :=
    tells_lowerStatements fun statement hmem =>
      (hbody statement hmem).tells hwf (fun _ => .inr) (.inl rfl)
  have hlast : ∀ (bytes : Nat) (line : Line),
      line ∈ (if bytes > 0 then [Line.instr (.release bytes)] else []) ++ [Line.instr .ret] →
      line.mention? = none ∧ line.label? = none ∧ line.references = [] := by
    intro bytes line hmem
    split at hmem
    · rcases List.mem_cons.mp hmem with rfl | hmem
      · exact ⟨rfl, rfl, rfl⟩
      · rw [List.mem_singleton.mp hmem]
        exact ⟨rfl, rfl, rfl⟩
    · rw [List.mem_singleton.mp hmem]
      exact ⟨rfl, rfl, rfl⟩
  unfold Function.lower
  simp only [ensures_bind, ensures_visit, ensures_lift, ensures_mark, ensures_release, ensures_emit]
  intro size _
  refine (hreserve size _).mono ?_
  intro _ reserved _ hreserved
  refine (hstatements _).mono ?_
  intro _ body _ hshows
  exact ⟨reserved ++ body, _, by simp, hreserved.append hshows, hlast size⟩

/-- What such a code shows is what the function evaluates. -/
theorem Function.Shown.shown_eq {scopes : Scopes} {function : Function} {code : List Line}
    (h : function.Shown scopes code) : shown code = function.evaluated := by
  obtain ⟨body, last, rfl, hshows, hlast⟩ := h
  have hnone : shown last = [] :=
    List.filterMap_eq_nil_iff.mpr fun line hmem => (hlast line hmem).1
  rw [shown_cons_none rfl, shown_append, shown_cons_none rfl, hnone, hshows.shown_eq,
    List.append_nil]

end AccumulatorC
