import AccumulatorC.Proofs.Lowering.StatementHeadroom
import AccumulatorC.Proofs.Lowering.Unplaced
import AccumulatorC.Proofs.Program.Parser.Soundness
import AccumulatorC.Proofs.Program.Parser.Unit
import AccumulatorC.Proofs.Program.StaticScopes

/-!
# Headroom by size

The size of what is written is a number of tokens that it takes at least. What it elaborates to
deepens the stack by fewer bytes: a token stands for at most one byte that is pushed, and a
declaration takes more tokens than bytes of a frame.
-/

namespace AccumulatorC

/-! ## Sizes -/

mutual

/-- Tokens that a term takes at least. -/
def Term.size : Term → Nat
  | .integer _ | .character _ | .string _ | .name _ => 1
  | .call _ arguments => 2 + Term.allSize arguments
  | .trailing _ operand => operand.size + 1
  | .leading _ operand => 1 + operand.size
  | .binary _ left right => left.size + 1 + right.size
  | .assign target value => target.size + 1 + value.size

/-- The same for arguments, with a comma after each. -/
def Term.allSize : List Term → Nat
  | [] => 0
  | t :: rest => t.size + 1 + Term.allSize rest

end

/-- Tokens that a declaration takes at least, without the semicolon. -/
def Variable.size (declared : Variable) : Nat :=
  2 + declared.initial.elim 0 fun value => 1 + value.size

mutual

/-- Tokens that a phrase takes at least. -/
def Phrase.size : Phrase → Nat
  | .declaration declared => declared.size + 1
  | .expression value => value.size + 1
  | .returning value => 2 + value.elim 0 Term.size
  | .branch condition yes => 3 + condition.size + yes.size
  | .choice condition yes no => 4 + condition.size + yes.size + no.size
  | .loop condition body => 3 + condition.size + body.size
  | .block body => 2 + Phrase.allSize body

/-- The same for phrases one after the other. -/
def Phrase.allSize : List Phrase → Nat
  | [] => 0
  | phrase :: rest => phrase.size + Phrase.allSize rest

end

/-- Tokens that a function takes at least: two for each parameter, with commas between them. -/
def Routine.size (defined : Routine) : Nat :=
  5 + 3 * defined.parameters.length + Phrase.allSize defined.body

/-- Tokens that an entry of a source takes at least. -/
def Entry.size : Entry → Nat
  | .global declared => declared.size + 1
  | .function defined => defined.size

/-! ## Sizes and spellings -/

theorem Term.allSize_le {arguments : List (Term × List Token)}
    (h : ∀ argument ∈ arguments, argument.1.size ≤ argument.2.length) :
    allSize (arguments.map (·.1)) ≤ (commaSeparated (arguments.map (·.2))).length + 1 := by
  induction arguments with
  | nil => exact Nat.zero_le _
  | cons first others ih =>
      obtain ⟨hfirst, hothers⟩ := List.forall_mem_cons.mp h
      cases others with
      | nil =>
          simp only [List.map_cons, List.map_nil, allSize, commaSeparated_singleton]
          omega
      | cons second others =>
          have hrest := ih hothers
          simp only [List.map_cons, commaSeparated_cons, List.length_append, List.length_cons]
            at hrest ⊢
          rw [allSize]
          omega

@[simp] theorem Term.length_parenthesized (tokens : List Token) :
    (parenthesized tokens).length = tokens.length + 2 := by
  simp [parenthesized]

/-- No term is larger than the tokens that spell it. -/
theorem Term.Spelling.size_le {level : Nat} {t : Term} {tokens : List Token}
    (h : t.Spelling level tokens) : t.size ≤ tokens.length := by
  induction h with
  | integer | character | string | name => exact Nat.le_refl _
  | call _ ih =>
      have harguments := Term.allSize_le ih
      rw [Term.size, List.length_cons, length_parenthesized]
      omega
  | parenthesized _ ih =>
      rw [length_parenthesized]
      omega
  | trailing step _ ih =>
      rw [Term.size, List.length_append, List.length_singleton]
      omega
  | leading op _ ih =>
      rw [Term.size, List.length_cons]
      omega
  | binary op _ _ _ ihleft ihright =>
      rw [Term.size, List.length_append, List.length_cons]
      omega
  | assign _ _ ihtarget ihvalue =>
      rw [Term.size, List.length_append, List.length_cons]
      omega
  | looser _ _ ih => exact ih

theorem Ty.Spelling.length_pos {type : Ty} {tokens : List Token} (h : type.Spelling tokens) :
    0 < tokens.length := by
  obtain ⟨word, stars, rfl, -⟩ := h.begins
  exact Nat.succ_pos _

theorem Variable.SpellsInitial.size_le {initial : Option Term} {tokens : List Token}
    (h : SpellsInitial initial tokens) :
    (initial.elim 0 fun value => 1 + value.size) ≤ tokens.length := by
  cases h with
  | none => exact Nat.le_refl _
  | some h =>
      have hle := h.size_le
      rw [Option.elim_some, List.length_cons]
      omega

theorem Variable.length_le_externally (external : Bool) (tokens : List Token) :
    tokens.length ≤ (externally external tokens).length := by
  unfold externally
  split
  · exact Nat.le_succ _
  · exact Nat.le_refl _

theorem Variable.Spelling.size_le {declared : Variable} {tokens : List Token}
    (h : declared.Spelling tokens) : declared.size ≤ tokens.length := by
  obtain ⟨htype, hinitial⟩ := h
  have htypeLength := htype.length_pos
  have hinitialLength := hinitial.size_le
  apply Nat.le_trans _ (length_le_externally _ _)
  rw [List.length_append, List.length_cons, size]
  omega

mutual

/-- No phrase is larger than the tokens that spell it. -/
theorem Phrase.Spelling.size_le : ∀ {phrase : Phrase} {tokens : List Token},
    phrase.Spelling tokens → phrase.size ≤ tokens.length
  | _, _, .declaration h => by
      have hle := h.size_le
      rw [Phrase.size, List.length_append, List.length_singleton]
      omega
  | _, _, .expression h => by
      have hle := h.size_le
      rw [Phrase.size, List.length_append, List.length_singleton]
      omega
  | _, _, .returnNothing => Nat.le_refl _
  | _, _, .returnValue h => by
      have hle := h.size_le
      rw [Phrase.size, Option.elim_some, List.length_cons, List.length_append,
        List.length_singleton]
      omega
  | _, _, .branch hcondition hyes _ => by
      have hle := hcondition.size_le
      have hinside := hyes.size_le
      rw [Phrase.size, List.length_cons, List.length_append, Term.length_parenthesized]
      omega
  | _, _, .choice hcondition hyes _ _ hno _ => by
      have hle := hcondition.size_le
      have hinside := hyes.size_le
      have hother := hno.size_le
      simp only [Phrase.size, List.length_cons, List.length_append, Term.length_parenthesized]
      omega
  | _, _, .loop hcondition hbody _ => by
      have hle := hcondition.size_le
      have hinside := hbody.size_le
      rw [Phrase.size, List.length_cons, List.length_append, Term.length_parenthesized]
      omega
  | _, _, .block hbody => by
      have hinside := hbody.size_le
      rw [Phrase.size, List.length_cons, List.length_append, List.length_singleton]
      omega

theorem Phrase.AllSpelling.size_le : ∀ {phrases : List Phrase} {tokens : List Token},
    AllSpelling phrases tokens → Phrase.allSize phrases ≤ tokens.length
  | _, _, .nil => Nat.le_refl _
  | _, _, .cons h hrest => by
      have hle := h.size_le
      have hothers := hrest.size_le
      rw [Phrase.allSize, List.length_append]
      omega

end

theorem Parameter.three_mul_length_le {parameters : List (Parameter × List Token)}
    (h : ∀ parameter ∈ parameters, parameter.1.Spelling parameter.2) :
    3 * parameters.length ≤ (Term.commaSeparated (parameters.map (·.2))).length + 1 := by
  have htwo : ∀ {parameter : Parameter} {tokens : List Token}, parameter.Spelling tokens →
      2 ≤ tokens.length := by
    rintro parameter _ ⟨htype⟩
    have hpositive := htype.length_pos
    rw [List.length_append, List.length_singleton]
    omega
  induction parameters with
  | nil => exact Nat.zero_le _
  | cons first others ih =>
      obtain ⟨hfirst, hothers⟩ := List.forall_mem_cons.mp h
      have hle := htwo hfirst
      cases others with
      | nil =>
          simp only [List.map_cons, List.map_nil, Term.commaSeparated_singleton,
            List.length_singleton]
          omega
      | cons second others =>
          have hrest := ih hothers
          simp only [List.map_cons, Term.commaSeparated_cons, List.length_append, List.length_cons]
            at hrest ⊢
          omega

/-- No function is larger than the tokens that spell it. -/
theorem Routine.Spelling.size_le {defined : Routine} {tokens : List Token}
    (h : defined.Spelling tokens) : defined.size ≤ tokens.length := by
  obtain ⟨hresult, hparameters, hbody⟩ := h
  have htype := hresult.length_pos
  have hlist := Parameter.three_mul_length_le hparameters
  have hinside := hbody.size_le
  simp only [Routine.size, List.length_map, List.length_append, List.length_cons,
    Term.length_parenthesized, List.length_nil]
  omega

theorem Entry.Spelling.size_le {entry : Entry} {tokens : List Token} (h : entry.Spelling tokens) :
    entry.size ≤ tokens.length := by
  cases h with
  | global h =>
      have hle := h.size_le
      rw [Entry.size, List.length_append, List.length_singleton]
      omega
  | function h => exact h.size_le

/-! ## Sizes and headroom -/

section Terms

variable {meaning : String → Option Symbol} {scope : ScopeId}

theorem Term.size_pos (t : Term) : 0 < t.size := by
  cases t <;> rw [size] <;> omega

theorem Expr.allHeadroom_le {arguments : List (Term × Expr × List Conversion)}
    (h : ∀ argument ∈ arguments, argument.2.1.headroom < argument.1.size) :
    Expr.allHeadroom (arguments.map (·.2.1)) ≤ Term.allSize (arguments.map (·.1)) := by
  induction arguments with
  | nil => exact Nat.le_refl _
  | cons first others ih =>
      obtain ⟨hfirst, hothers⟩ := List.forall_mem_cons.mp h
      have hrest := ih hothers
      rw [List.map_cons, List.map_cons, allHeadroom, Term.allSize]
      omega

/-- An expression needs less headroom than the term that it comes from has tokens. -/
theorem Term.Elaborates.headroom_lt {t : Term} {e : Expr} {warnings : List Conversion}
    (h : t.Elaborates meaning scope e warnings) : e.headroom < t.size := by
  induction h with
  | integer | character | string | name => exact Nat.one_pos
  | call _ _ _ _ ih =>
      have hle := Expr.allHeadroom_le ih
      rw [Expr.headroom, Term.size]
      omega
  | trailing step _ _ _ ih =>
      cases step <;>
      · rw [Term.size]
        simp only [Step.back, Step.op, Expr.headroom]
        omega
  | stepping step _ _ _ ih =>
      cases step <;>
      · rw [Term.size]
        simp only [Step.op, Expr.headroom]
        omega
  | addressOf _ _ ih =>
      rw [Term.size]
      simp only [Expr.headroom]
      omega
  | deref _ _ ih =>
      rw [Expr.headroom, Term.size]
      omega
  | @signed t _ _ _ hop _ _ ih =>
      have hpositive := t.size_pos
      rw [Term.size]
      rcases hop with rfl | rfl <;> simp only [Expr.headroom] <;> omega
  | @binary left _ _ _ _ _ _ _ op _ _ _ ihleft ihright =>
      rw [Expr.headroom, Term.size]
      omega
  | assign _ _ _ _ ihtarget ihvalue =>
      rw [Expr.headroom, Term.size]
      omega

end Terms

section Phrases

open Scopes

theorem Scopes.frameOf_declare {scopes after : Scopes} {id : ScopeId} {name : String}
    {location : Location} {type : Ty} {external : Bool} {symbol : Symbol}
    (h : scopes.declare id name location type external = .ok (symbol, after)) :
    after.frameOf id ≤ scopes.frameOf id + type.size := by
  obtain ⟨scope, storage, frame, hscope, -, hallot, -, rfl⟩ := declare_eq_ok h
  have hframe : frame ≤ scope.frame + type.size := by
    rcases allot_eq_ok hallot with ⟨-, -, rfl⟩ | ⟨-, -, -, rfl⟩ | ⟨-, -, -, rfl⟩ <;> omega
  have hafter : (scopes.set id ⟨scope.parent, symbol :: scope.symbols, frame⟩).list[id]? =
      some ⟨scope.parent, symbol :: scope.symbols, frame⟩ := by
    rw [list_set, if_pos rfl, hscope]
    rfl
  rw [frameOf, frameOf, hafter, hscope]
  exact hframe

theorem Scopes.frameOf_enter {scopes after : Scopes} {parent id : ScopeId}
    (h : scopes.enter parent = .ok (id, after)) : after.frameOf id = 0 := by
  obtain ⟨-, rfl, rfl⟩ := enter_eq_ok h
  simp [frameOf]

theorem Scopes.length_enter {scopes after : Scopes} {parent id : ScopeId}
    (h : scopes.enter parent = .ok (id, after)) :
    parent < id ∧ id = scopes.list.length ∧ after.list.length = id + 1 := by
  obtain ⟨hparent, rfl, rfl⟩ := enter_eq_ok h
  exact ⟨hparent, rfl, List.length_append⟩

theorem Scopes.Grows.frameOf_eq {before after : Scopes} {current id : ScopeId}
    (h : before.Grows after current) (hid : id < before.list.length) (hne : id ≠ current) :
    after.frameOf id = before.frameOf id := by
  rw [frameOf, h.other id hid hne, frameOf]

/-- The bytes that a declaration adds to the frame around it and the headroom of its initial value
are together no more than the declaration has tokens. -/
theorem Variable.Elaborates.headroom_le {given after : Parser.Setting} {declared : Variable}
    {d : Declaration} {warnings : List Conversion} (h : declared.Elaborates given d after warnings)
    (scopes : Scopes) :
    after.scopes.frameOf given.scope + (Statement.declaration d).headroom scopes ≤
      given.scopes.frameOf given.scope + declared.size := by
  cases h with
  | @plain _ type _ _ _ hvalue hdeclare =>
      have hframe := frameOf_declare hdeclare
      have hsize := type.size_le_two
      simp only [Statement.headroom, Variable.size, Option.elim_none]
      omega
  | @initial type _ _ _ _ _ _ _ hvalue hassign _ hdeclare =>
      have hframe := frameOf_declare hdeclare
      have hsize := type.size_le_two
      have hheadroom := hvalue.headroom_lt
      simp only [Statement.headroom, Variable.size, Option.elim_some]
      omega

/-- The frames of the scopes that one table adds to another are as they are in a third one. -/
def Scopes.Settled (before after final : Scopes) : Prop :=
  ∀ id, before.list.length ≤ id → id < after.list.length → final.frameOf id = after.frameOf id

namespace Scopes.Settled

variable {before middle after final : Scopes} {current : ScopeId}

theorem left (h : before.Settled after final) (hgrows : middle.Grows after current)
    (hcurrent : current < before.list.length) : before.Settled middle final := by
  intro id hle hlt
  rw [h id hle (Nat.lt_of_lt_of_le hlt hgrows.length_le)]
  exact hgrows.frameOf_eq hlt (Nat.ne_of_gt (Nat.lt_of_lt_of_le hcurrent hle))

theorem right (h : before.Settled after final) (hle : before.list.length ≤ middle.list.length) :
    middle.Settled after final := fun id hid hlt => h id (Nat.le_trans hle hid) hlt

end Scopes.Settled

mutual

/-- The bytes that a phrase adds to the frame around it and its headroom are together no more than
the phrase has tokens. -/
theorem Phrase.Elaborates.headroom_le : ∀ {given after : Parser.Setting} {phrase : Phrase}
    {statement : Statement} {warnings : List Conversion} {final : Scopes},
    phrase.Elaborates given statement after warnings →
      given.scope < given.scopes.list.length → given.scopes.Settled after.scopes final →
      after.scopes.frameOf given.scope + statement.headroom final ≤
        given.scopes.frameOf given.scope + phrase.size
  | _, _, _, _, _, final, .declaration h, _, _ => by
      have hle := h.headroom_le final
      rw [Phrase.size]
      omega
  | _, _, _, _, _, _, .expression h _, _, _ => by
      have hlt := h.headroom_lt
      rw [Phrase.size, Statement.headroom]
      omega
  | _, _, _, _, _, _, .returnNothing _, _, _ => Nat.le_add_right _ _
  | _, _, _, _, _, _, .returnValue h _, _, _ => by
      have hlt := h.headroom_lt
      rw [Phrase.size, Statement.headroom, Option.elim_some, Option.elim_some]
      omega
  | _, _, _, _, _, _, .branch hcondition _ hyes, hscope, hfinal => by
      have hlt := hcondition.headroom_lt
      have hle := hyes.headroom_le hscope hfinal
      rw [Phrase.size, Statement.headroom]
      omega
  | _, _, _, _, _, _, .choice hcondition _ hyes hno, hscope, hfinal => by
      have hlt := hcondition.headroom_lt
      obtain ⟨hsame, -⟩ := hyes.keeps
      have hgrows := hno.grows
      have hlength := hyes.grows.length_le
      rw [hsame] at hgrows
      have hle := hyes.headroom_le hscope (hfinal.left hgrows hscope)
      have hscope' := Nat.lt_of_lt_of_le hscope hlength
      have hle' := hno.headroom_le (by rwa [hsame]) (hfinal.right hlength)
      rw [hsame] at hle'
      rw [Phrase.size, Statement.headroom]
      omega
  | _, _, _, _, _, _, .loop hcondition _ hbody, hscope, hfinal => by
      have hlt := hcondition.headroom_lt
      have hle := hbody.headroom_le hscope hfinal
      rw [Phrase.size, Statement.headroom]
      omega
  | _, _, _, _, _, _, @Elaborates.block given after inner entered _ _ _ henter hbody, hscope,
      hfinal => by
      -- The frame around the block stays as it is, and the one of the block begins with no bytes.
      obtain ⟨hinside, hinner, hlonger⟩ := length_enter henter
      have hlength : entered.list.length ≤ after.scopes.list.length := hbody.grows.length_le
      have hknown : inner < entered.list.length := by rw [hlonger]; exact Nat.lt_succ_self _
      have hle := hbody.headroom_le hknown (hfinal.right (Nat.le_of_lt (hinner ▸ hknown)))
      have hempty := frameOf_enter henter
      have hframe := hfinal inner (Nat.le_of_eq hinner.symm) (Nat.lt_of_lt_of_le hknown hlength)
      have hsame := (grows_enter henter hbody.grows inner).frameOf_eq hscope (Nat.ne_of_lt hinside)
      simp only [Phrase.size, Statement.headroom] at hle hframe ⊢
      omega

theorem Phrase.AllElaborate.headroom_le : ∀ {given after : Parser.Setting} {phrases : List Phrase}
    {statements : List Statement} {warnings : List Conversion} {final : Scopes},
    AllElaborate given phrases statements after warnings →
      given.scope < given.scopes.list.length → given.scopes.Settled after.scopes final →
      after.scopes.frameOf given.scope + Statement.allHeadroom final statements ≤
        given.scopes.frameOf given.scope + Phrase.allSize phrases
  | _, _, _, _, _, _, .nil, _, _ => Nat.le_refl _
  | _, _, _, _, _, _, .cons h hrest, hscope, hfinal => by
      obtain ⟨hsame, -⟩ := h.keeps
      have hgrows := hrest.grows
      have hlength := h.grows.length_le
      rw [hsame] at hgrows
      have hle := h.headroom_le hscope (hfinal.left hgrows hscope)
      have hscope' := Nat.lt_of_lt_of_le hscope hlength
      have hle' := hrest.headroom_le (by rwa [hsame]) (hfinal.right hlength)
      rw [hsame] at hle'
      rw [Phrase.allSize, Statement.allHeadroom]
      omega

end

end Phrases

/-! ## Functions -/

section Functions

open Scopes

theorem Scopes.frameOf_reserve {scopes after : Scopes} {id : ScopeId} {bytes : Nat}
    (h : scopes.reserve id bytes = .ok after) : after.frameOf id = scopes.frameOf id + bytes := by
  obtain ⟨scope, hscope, -, rfl⟩ := reserve_eq_ok h
  rw [frameOf, frameOf, list_set, if_pos rfl, hscope]
  rfl

theorem Parameter.AllElaborate.frameOf_le {scope : ScopeId} {scopes after : Scopes}
    {parameters : List Parameter} (h : AllElaborate scope scopes parameters after) :
    after.frameOf scope ≤ scopes.frameOf scope + 2 * parameters.length := by
  induction h with
  | nil => exact Nat.le_refl _
  | @cons _ _ _ type _ _ _ _ hdeclare _ ih =>
      have hframe := frameOf_declare hdeclare
      have hsize := type.size_le_two
      rw [List.length_cons]
      omega

/-- A function has more tokens than bytes on the stack. -/
theorem Routine.Elaborates.headroom_le {scopes after final : Scopes} {defined : Routine}
    {f : Function} {warnings : List Conversion} (h : defined.Elaborates scopes f after warnings)
    (hfinal : scopes.Settled after final) (hfunction : f.WellFormed final) :
    f.headroom final ≤ defined.size := by
  obtain ⟨henter, hparameters, hreserve, hdeclare, hopen, hbody⟩ := h
  rename_i entered parameterized reserved declared opened parameterScope inner result name
    parameters symbol body b after
  obtain ⟨hinside, hparameterScope, hentered⟩ := length_enter henter
  obtain ⟨hinside', hinner, hopened⟩ := length_enter hopen
  -- The frame of the parameters is complete when the body begins.
  have hlater : reserved.Grows after.scopes globalScope :=
    (grows_declare hdeclare).trans (grows_enter hopen hbody.grows globalScope)
  have hframe : after.scopes.frameOf parameterScope ≤ 2 * parameters.length + 2 := by
    have hknown : parameterScope < reserved.list.length := by
      have hgrows := (hparameters.grows.trans (grows_reserve hreserve)).length_le
      rw [hentered] at hgrows
      exact hgrows
    have hle := hparameters.frameOf_le
    rw [frameOf_enter henter] at hle
    rw [hlater.frameOf_eq hknown (Nat.ne_of_gt hinside), frameOf_reserve hreserve,
      returnAddressSize]
    omega
  have hlength : opened.list.length ≤ after.scopes.list.length := hbody.grows.length_le
  have hknown : inner < opened.list.length := by rw [hopened]; exact Nat.lt_succ_self _
  have hle : scopes.list.length ≤ inner := by
    rw [← hparameterScope]
    exact Nat.le_of_lt hinside'
  have hbodyLe : after.scopes.frameOf inner + Statement.allHeadroom final b ≤
      opened.frameOf inner + Phrase.allSize body :=
    hbody.headroom_le hknown fun id hid hlt =>
      hfinal id (Nat.le_trans (Nat.le_of_lt (Nat.lt_of_le_of_lt hle hknown)) hid) hlt
  have hempty := frameOf_enter hopen
  have hinnerFrame := hfinal inner hle (Nat.lt_of_lt_of_le hknown hlength)
  have hparameterFrame := hfinal parameterScope (Nat.le_of_eq hparameterScope.symm)
    (Nat.lt_trans hinside' (Nat.lt_of_lt_of_le hknown hlength))
  -- On the stack are the frame of the body and that of the parameters.
  obtain ⟨result', types, table, -, htable, hparameterTable, -⟩ := hfunction.signature
  obtain ⟨bodyTable, hbodyTable, hparent⟩ := hfunction.body
  have houter : final.frames parameterScope globalScope =
      final.frameOf parameterScope + final.frames globalScope globalScope :=
    frames_of_parent htable hparameterTable.parent hinside (Nat.ne_of_gt hinside)
  have hframes : final.frames inner globalScope =
      final.frameOf inner + final.frames parameterScope globalScope :=
    frames_of_parent hbodyTable hparent hinside' (Nat.ne_of_gt (Nat.lt_trans hinside hinside'))
  rw [frames_self] at houter
  simp only [Function.headroom, Routine.size]
  omega

theorem Entry.AllElaborate.headroom_le {scopes after final : Scopes} {entries : List Entry}
    {items : List Item} {warnings : List Conversion}
    (h : AllElaborate scopes entries items after warnings)
    (hglobal : globalScope < scopes.list.length) (hfinal : scopes.Settled after final)
    {f : Function} (hmem : Item.function f ∈ items)
    (hfunction : f.WellFormed final) : ∃ entry ∈ entries, f.headroom final ≤ entry.size := by
  induction h with
  | nil => cases hmem
  | @cons _ middle _ _ _ _ _ _ _ h hrest ih =>
      have hlength := h.grows.length_le
      rcases List.mem_cons.mp hmem with rfl | hmem
      · cases h with
        | function h =>
            refine ⟨_, List.mem_cons_self, ?_⟩
            exact h.headroom_le (hfinal.left hrest.grows hglobal) hfunction
      · obtain ⟨entry, hentry, hle⟩ :=
          ih (Nat.lt_of_lt_of_le hglobal hlength) (hfinal.right hlength) hmem
        exact ⟨entry, List.mem_cons_of_mem _ hentry, hle⟩

theorem Entry.AllSpelling.size_le {entries : List Entry} {tokens : List Token}
    (h : AllSpelling entries tokens) {entry : Entry} (hmem : entry ∈ entries) :
    entry.size ≤ tokens.length := by
  induction h with
  | nil => cases hmem
  | cons h hrest ih =>
      rw [List.length_append]
      rcases List.mem_cons.mp hmem with rfl | hmem
      · exact Nat.le_trans h.size_le (Nat.le_add_right _ _)
      · exact Nat.le_trans (ih hmem) (Nat.le_add_left _ _)

end Functions

/-! ## Programs -/

/-- A function that is read from tokens has no more bytes on the stack than there are tokens. -/
theorem Program.headroom_le {tokens : List (Located Token)} {parsed : Parsed}
    (h : Program.ofTokens tokens = .ok parsed) {function : Function}
    (hmem : Item.function function ∈ parsed.program.unplaced.items)
    (hwf : parsed.program.unplaced.WellFormed) :
    function.headroom parsed.program.unplaced.scopes ≤ tokens.length := by
  obtain ⟨entries, hspelling, hitems, -⟩ := ofTokens_source h
  obtain ⟨entry, hentry, hle⟩ :=
    hitems.headroom_le Nat.one_pos (fun _ _ _ => rfl) hmem (hwf.functions function hmem)
  have hsize := hspelling.size_le hentry
  rw [List.length_map] at hsize
  exact Nat.le_trans hle hsize

/-- What has been read is well-formed without its places too. -/
theorem Program.unplaced_wellFormed {tokens : List (Located Token)} {parsed : Parsed}
    (h : Program.ofTokens tokens = .ok parsed) : parsed.program.unplaced.WellFormed := by
  have hunplaced : Program.ofTokens (tokens.map Located.unplaced) = .ok parsed.unplaced := by
    rw [ofTokens_unplaced, h]
  exact Program.ofTokens_wellFormed hunplaced

theorem Stop.mapError_eq_breakdown {ε δ α : Type} {f : ε → δ} {result : Except (Stop ε) α}
    {cause : Breakdown} :
    result.mapError (Stop.map f) = .error (.breakdown cause) ↔
      result = .error (.breakdown cause) := by
  rcases result with (found | found) | value <;> simp [Except.mapError, Stop.map]

/-- The lowering of a program breaks down with its places as it does without them. -/
theorem Program.lines_unplaced_eq_breakdown {program : Program} {cause : Breakdown} :
    program.unplaced.lines = .error (.breakdown cause) ↔
      program.lines = .error (.breakdown cause) := by
  rw [← Stop.mapError_eq_breakdown, program.lines_unplaced, Stop.mapError_eq_breakdown]

/-- The lowering of what has been read breaks down only over byte counts, and only if there are as
many tokens as the address space has bytes. -/
theorem Program.breakdown_of_lines {tokens : List (Located Token)} {parsed : Parsed}
    (h : Program.ofTokens tokens = .ok parsed) {cause : Breakdown}
    (hlines : parsed.program.lines = .error (.breakdown cause)) :
    cause = .overflow ∧ addressLimit ≤ tokens.length := by
  -- The grammar tells what a program is without places, so that is what is lowered here.
  have hwf := unplaced_wellFormed h
  obtain ⟨hcause, function, hmem, hlarge⟩ := hwf.breakdown (lines_unplaced_eq_breakdown.mpr hlines)
  exact ⟨hcause, Nat.le_trans hlarge (headroom_le h hmem hwf)⟩

end AccumulatorC
