import Mathlib.Data.Set.Basic
import AccumulatorC.Proofs.Lowering.Screening
import AccumulatorC.Proofs.Program.Parser.Unit

/-!
# Operations on pairs that the machine lacks

A program that multiplies, divides or shifts something of two bytes is never lowered, however deep
inside a function it does, and no other program is refused because the machine lacks an operation.
Initial values of global variables are found when the program is compiled and need no machine.
-/

namespace AccumulatorC

open Lowering

/-- What the machine lacks for some of the expressions. -/
def Expr.lacking (nodes : List Expr) : Set WideOp := {op | ∃ node ∈ nodes, node.missing? = some op}

namespace Expr

variable {e : Expr} {nodes later : List Expr}

@[simp] theorem lacking_nil : lacking [] = ∅ := by
  ext op
  simp [lacking]

@[simp] theorem lacking_append : lacking (nodes ++ later) = lacking nodes ∪ lacking later := by
  ext op
  simp [lacking, or_and_right, exists_or]

theorem lacking_cons : lacking (e :: nodes) = {op | e.missing? = some op} ∪ lacking nodes := by
  ext op
  simp [lacking]

/-- For what is no operation on two operands the machine lacks nothing by itself. -/
theorem lacking_cons_of_none (h : e.missing? = none) : lacking (e :: nodes) = lacking nodes := by
  rw [lacking_cons, h]
  simp

theorem lacking_eq_empty : lacking nodes = ∅ ↔ ∀ node ∈ nodes, node.missing? = none := by
  simp only [Set.eq_empty_iff_forall_notMem, lacking, Set.mem_ofPred_eq, not_exists, not_and,
    Option.eq_none_iff_forall_ne_some]
  exact ⟨fun h node hnode op => h op node hnode, fun h op node hnode => h node hnode op⟩

end Expr

namespace Lowering

variable {α β : Type}

/-- The step looks for operations that the machine lacks: it gives a value only if there are none,
and stops for one only if it is among them. -/
def Screens (lacking : Set WideOp) (step : Lowering α) : Prop :=
  step.Concludes (fun cause => ∀ op, cause.missing? = some op → op ∈ lacking) fun _ => lacking = ∅

namespace Screens

variable {lacking more : Set WideOp} {step : Lowering α} {next : α → Lowering β}

theorem of_supported (h : step.Supported) : Screens ∅ step :=
  h.mono (fun cause hnone op hop => by rw [hnone] at hop; cases hop) fun _ _ => rfl

theorem bind (h : Screens lacking step) (hnext : ∀ value, Screens more (next value)) :
    Screens (lacking ∪ more) (step >>= next) := by
  refine concludes_bind.mpr (h.mono ?_ fun value hempty => (hnext value).mono ?_ fun _ hrest => ?_)
  · exact fun cause hcause op hop => Set.mem_union_left _ (hcause op hop)
  · exact fun cause hcause op hop => Set.mem_union_right _ (hcause op hop)
  · rw [hempty, hrest, Set.union_empty]

/-- A step that the machine supports comes after. -/
theorem thenSupported (h : Screens lacking step) (hnext : ∀ value, (next value).Supported) :
    Screens lacking (step >>= next) := by
  have hwhole := h.bind fun value => of_supported (hnext value)
  rwa [Set.union_empty] at hwhole

/-- A step that the machine supports comes before. -/
theorem afterSupported (h : step.Supported) (hnext : ∀ value, Screens more (next value)) :
    Screens more (step >>= next) := by
  have hwhole := (of_supported h).bind hnext
  rwa [Set.empty_union] at hwhole

theorem visit {location : Location} {next : Unit → Lowering α} (h : Screens lacking (next ())) :
    Screens lacking (Lowering.visit location >>= next) := h

end Screens

/-- An operator stops for what the machine lacks to apply it to pairs. -/
theorem screens_operate (note : Note) (op : BinaryOp) (left right : Expr) (l r : Reg) :
    Screens {lacked | (Expr.binary note op left right).missing? = some lacked}
      (operate op note.type.size l r) := by
  unfold operate
  split
  next comparison hcomparison =>
    have hnone : (Expr.binary note op left right).missing? = none := by
      cases op <;> first | exact ite_self _ | cases hcomparison
    simpa [hnone] using Screens.of_supported (.compare comparison l r)
  next hcomparison =>
    by_cases hsize : note.type.size = 2
    · rw [if_pos hsize]
      simp only [Expr.missing?, if_pos hsize]
      cases op with
      | add | sub => simpa [BinaryOp.missing?, operatePairs] using
          Screens.of_supported (.combine _ l r)
      | and | or => simpa [BinaryOp.missing?, operatePairs] using
          Screens.of_supported (.halfwise _ l r)
      | mul | div | shiftLeft | shiftRight => exact fun lacked hlacked => hlacked
      | _ => cases hcomparison
    · rw [if_neg hsize]
      simpa [Expr.missing?, hsize] using Screens.of_supported (.operateBytes op l r)

end Lowering

/-! ## Expressions -/

section Expressions

variable {scopes : Scopes} {scope : ScopeId}

theorem screens_lowerArguments {parameters : List Ty} {arguments : List Expr}
    (hlength : arguments.length = parameters.length)
    (h : ∀ argument ∈ arguments, Screens (Expr.lacking argument.nodes) (argument.lower scopes)) :
    Screens (Expr.lacking (Expr.allNodes arguments)) (lowerArguments scopes parameters arguments) := by
  induction arguments generalizing parameters with
  | nil =>
      have hnone : lowerArguments scopes parameters [] = pure 0 := by
        cases parameters <;> rw [lowerArguments] <;> simp
      rw [hnone]
      exact Expr.lacking_nil
  | cons argument arguments ih =>
      cases parameters with
      | nil => simp at hlength
      | cons parameter parameters =>
          rw [lowerArguments, Expr.allNodes, Expr.lacking_append]
          refine (h argument List.mem_cons_self).bind fun r => ?_
          refine .afterSupported (.coerce r _) fun r' => ?_
          refine .afterSupported ((Supported.push r').bind fun _ => .free r') fun _ => ?_
          refine .thenSupported (ih ?_ ?_) fun _ => .lift _
          · simpa using hlength
          · exact fun argument hmem => h argument (List.mem_cons_of_mem _ hmem)

theorem screens_lowerCall {note : Note} {function : Symbol} {arguments : List Expr}
    (h : (Expr.call note function arguments).WellFormed scopes scope)
    (harguments : ∀ argument ∈ arguments, Screens (Expr.lacking argument.nodes) (argument.lower scopes)) :
    Screens (Expr.lacking (Expr.call note function arguments).nodes)
      (lowerCall scopes function arguments) := by
  have hlength : arguments.length = function.parameters.length := by
    cases h with
    | call _ _ htype _ haccepts _ => rw [Symbol.parameters_eq htype, haccepts.length_eq]
  rw [Expr.nodes, Expr.lacking_cons_of_none rfl]
  exact .afterSupported .saveAll fun saved =>
    (screens_lowerArguments hlength harguments).thenSupported fun pushed => .finishCall _ _ _

/-- Lowering an expression screens it: every part of it is looked at. -/
theorem Expr.WellFormed.screens {e : Expr} (h : e.WellFormed scopes scope) :
    Screens (Expr.lacking e.nodes) (e.lower scopes) := by
  induction h using Expr.WellFormed.alongLowering with
  | number h =>
      rw [Expr.lower, Expr.nodes, Expr.lacking_cons_of_none rfl, Expr.lacking_nil]
      exact .of_supported ((Supported.visit _).bind fun _ => (Supported.allocate _).bind fun _ => trivial)
  | string h =>
      rw [Expr.lower, Expr.nodes, Expr.lacking_cons_of_none rfl, Expr.lacking_nil]
      exact .of_supported ((Supported.visit _).bind fun _ => (Supported.stringData _ _).bind fun _ =>
        (Supported.allocate _).bind fun _ => trivial)
  | name h =>
      rw [Expr.lower, Expr.nodes, Expr.lacking_cons_of_none rfl, Expr.lacking_nil]
      exact .of_supported ((Supported.visit _).bind fun _ => (Supported.address _ _ _).bind fun _ =>
        (Supported.allocate _).bind fun _ => (Supported.load _ _).bind fun _ => .pure _)
  | @assignName note inner symbol value h hvalue ih =>
      rw [Expr.lower, Expr.nodes, Expr.lacking_cons_of_none rfl, Expr.nodes, List.singleton_append,
        Expr.lacking_cons_of_none rfl]
      refine .visit (ih.thenSupported fun r => (Supported.coerce r _).bind fun r' => ?_)
      exact (Supported.visit _).bind fun _ => (Supported.address _ _ _).bind fun _ =>
        (Supported.store _ _).bind fun _ => .pure _
  | @assignDeref note inner pointer value h hvalue hpointer ihvalue ihpointer =>
      rw [Expr.lower, Expr.nodes, Expr.lacking_cons_of_none rfl, Expr.nodes, List.cons_append,
        Expr.lacking_cons_of_none rfl, Expr.lacking_append, Set.union_comm]
      refine .visit (ihvalue.bind fun r => .afterSupported (.coerce r _) fun r' => .visit ?_)
      exact ihpointer.thenSupported fun pair => (Supported.store _ _).bind fun _ =>
        (Supported.free _).bind fun _ => .pure _
  | @binary note op left right h hleft hright ihleft ihright =>
      rw [Expr.lower, Expr.nodes, Expr.lacking_cons, Expr.lacking_append, Set.union_comm,
        Set.union_assoc]
      refine .visit (ihleft.bind fun l => .afterSupported (.coerce l _) fun l' => ?_)
      exact ihright.bind fun r => .afterSupported (.coerce r _) fun r' =>
        screens_operate note op left right l' r'
  | @addressName note inner symbol h =>
      rw [Expr.lower, Expr.nodes, Expr.lacking_cons_of_none rfl, Expr.nodes,
        Expr.lacking_cons_of_none rfl, Expr.lacking_nil]
      exact .of_supported ((Supported.visit _).bind fun _ => (Supported.address _ _ _).bind fun _ =>
        (Supported.allocate _).bind fun _ => trivial)
  | @addressDeref note inner pointer h hpointer ih =>
      rw [Expr.lower, Expr.nodes, Expr.lacking_cons_of_none rfl, Expr.nodes,
        Expr.lacking_cons_of_none rfl]
      exact .visit ih
  | @deref note operand h hoperand ih =>
      rw [Expr.lower, Expr.nodes, Expr.lacking_cons_of_none rfl]
      exact .visit (ih.thenSupported fun pair => (Supported.allocate _).bind fun _ =>
        (Supported.load _ _).bind fun _ => (Supported.free _).bind fun _ => .pure _)
  | @keeping note op operand h hoperand hop htype hvoid ih =>
      rw [Expr.nodes, Expr.lacking_cons_of_none rfl]
      cases op with
      | addressOf => cases hop
      | deref => cases hop
      | plus =>
          rw [Expr.lower]
          exact .visit ih
      | negate =>
          rw [Expr.lower]
          exact .visit (ih.thenSupported .negate)
      | increment =>
          rw [Expr.lower]
          exact .visit (ih.thenSupported fun r => (Supported.stepBy _ r _).bind fun _ => .pure _)
      | decrement =>
          rw [Expr.lower]
          exact .visit (ih.thenSupported fun r => (Supported.stepBy _ r _).bind fun _ => .pure _)
  | call h harguments ih =>
      rw [Expr.lower_call]
      refine .visit ((screens_lowerCall h ih).thenSupported fun result => ?_)
      cases result with
      | none => exact rfl
      | some r => exact .pure r

end Expressions

/-! ## Statements -/

section Statements

variable {frame : Frame} {scope : ScopeId}

theorem Frame.supported_settle : settle.Supported :=
  Supported.get.bind fun _ => .ite (.lift _) (.pure _)

/-- Settling the stack after a step lacks nothing more. -/
theorem Lowering.Screens.settle {lacking : Set WideOp} {step : Lowering Unit}
    (h : Screens lacking step) : Screens lacking (step >>= fun _ => Frame.settle) :=
  h.thenSupported fun _ => Frame.supported_settle

namespace Frame

theorem screens_setInitial {declared : Declaration}
    (hinitial : ∀ value, declared.initial = some value → value.WellFormed frame.scopes scope) :
    Screens (Expr.lacking (Statement.declaration declared).nodes) (frame.setInitial declared) := by
  rw [Statement.nodes, setInitial]
  cases hvalue : declared.initial with
  | none => exact Expr.lacking_nil
  | some value =>
      refine (hinitial value hvalue).screens.thenSupported fun r => (Supported.coerce r _).bind ?_
      exact fun r' => (Supported.address _ _ _).bind fun _ => (Supported.store _ _).bind fun _ =>
        .free r'

theorem screens_discard {value : Expr} (h : value.WellFormed frame.scopes scope) :
    Screens (Expr.lacking value.nodes) (frame.discard value) := by
  have hvalue : Screens (Expr.lacking value.nodes) (some <$> value.lower frame.scopes) := by
    rw [map_eq_pure_bind]
    exact h.screens.thenSupported fun r => .pure _
  rw [discard_eq]
  refine Screens.thenSupported ?_ fun result => ?_
  · cases value with
    | call note function arguments =>
        refine .visit (screens_lowerCall h fun argument hmem => ?_)
        cases h with
        | call _ _ _ _ _ harguments => exact (harguments argument hmem).screens
    | _ => exact hvalue
  · cases result <;> trivial

theorem supported_compareZero (r : Reg) : (compareZero r).Supported := by
  unfold compareZero
  split
  · exact .preservingAccumulator trivial
  · exact .ite trivial (.preservingAccumulator trivial)

theorem screens_test {condition : Expr} (h : condition.WellFormed frame.scopes scope) :
    Screens (Expr.lacking condition.nodes) (frame.test condition) := by
  rw [test_eq]
  exact h.screens.thenSupported fun r => (supported_compareZero r).bind fun _ => .free r

theorem screens_leave {value : Option Expr}
    (h : ∀ given, value = some given → given.WellFormed frame.scopes scope) (inner : ScopeId) :
    Screens (Expr.lacking (value.elim [] Expr.nodes)) (frame.leave value inner) := by
  rw [leave_eq]
  refine Screens.thenSupported ?_ fun _ => (Supported.lift _).bind fun _ =>
    (Supported.ite (.emit _) (.pure _)).bind fun _ => .emit _
  cases value with
  | none => exact Expr.lacking_nil
  | some given =>
      refine (h given rfl).screens.thenSupported fun r => (Supported.coerce r _).bind fun r' => ?_
      exact .ite ((Supported.emit _).bind fun _ => .free r') (.free r')

end Frame

theorem screens_lowerStatements {body : List Statement}
    (h : ∀ statement ∈ body, Screens (Expr.lacking statement.nodes) (statement.lower frame)) :
    Screens (Expr.lacking (Statement.allNodes body)) (lowerStatements frame body) := by
  induction body with
  | nil =>
      rw [lowerStatements]
      exact Expr.lacking_nil
  | cons statement rest ih =>
      rw [lowerStatements, Statement.allNodes, Expr.lacking_append]
      refine (h statement List.mem_cons_self).bind fun _ => ih fun other hmem => ?_
      exact h other (List.mem_cons_of_mem _ hmem)

/-- Lowering a statement screens all its expressions, whether or not they are ever evaluated. -/
theorem Statement.WellFormed.screens {result : Ty} {statement : Statement}
    (h : statement.WellFormed frame.scopes result scope) :
    Screens (Expr.lacking statement.nodes) (statement.lower frame) := by
  induction h with
  | declaration _ _ hinitial =>
      rw [Statement.lower]
      exact (Frame.screens_setInitial fun value hvalue => (hinitial value hvalue).1).settle
  | expression hvalue _ =>
      rw [Statement.lower, Statement.nodes]
      exact (Frame.screens_discard hvalue).settle
  | returning _ hvalue =>
      rw [Statement.lower, Statement.nodes]
      exact .visit (Frame.screens_leave (fun given hgiven => (hvalue given hgiven).1) _).settle
  | @branch scope condition yes no location hcondition _ hyes hno ihyes ihno =>
      have helse : Screens (Expr.lacking (no.elim [] Statement.nodes)) (lowerElse frame no) := by
        cases no with
        | none => exact Expr.lacking_nil
        | some other => exact ihno other rfl
      have hnodes : (Statement.branch condition yes no location).nodes =
          condition.nodes ++ (yes.nodes ++ no.elim [] Statement.nodes) := by
        cases no <;> simp [Statement.nodes]
      rw [Statement.lower_branch, hnodes, Expr.lacking_append, Expr.lacking_append]
      refine .visit (.afterSupported (.newLabel _) fun n => (Frame.screens_test hcondition).bind ?_)
      refine fun _ => .afterSupported (.emit _) fun _ => .afterSupported (.mark _) fun _ => ?_
      refine ihyes.bind fun _ => .afterSupported (.emit _) fun _ => .afterSupported (.mark _) ?_
      exact fun _ => helse.thenSupported fun _ => (Supported.mark _).bind fun _ =>
        Frame.supported_settle
  | loop hcondition _ _ ih =>
      rw [Statement.lower, Statement.nodes, Expr.lacking_append]
      refine .visit (.afterSupported (.newLabel _) fun n => .afterSupported (.mark _) fun _ => ?_)
      refine (Frame.screens_test hcondition).bind fun _ => .afterSupported (.emit _) fun _ => ?_
      refine .afterSupported (.mark _) fun _ => ih.thenSupported fun _ => (Supported.emit _).bind ?_
      exact fun _ => (Supported.mark _).bind fun _ => Frame.supported_settle
  | block _ _ _ ih =>
      rw [Statement.lower, Statement.nodes]
      refine .afterSupported (.lift _) fun size => ?_
      refine .afterSupported (.ite (.emit _) (.pure _)) fun _ => ?_
      exact (screens_lowerStatements ih).thenSupported fun _ =>
        (Supported.ite (.emit _) (.pure _)).bind fun _ => Frame.supported_settle

end Statements

/-! ## Programs -/

/-- The expressions of an item that are lowered to code. -/
def Item.codeNodes : Item → List Expr
  | .global _ => []
  | .function defined => defined.nodes

/-- The initial value of a global variable is folded, whatever operators it has. -/
theorem Declaration.supported_lowerGlobal (declared : Declaration) :
    declared.lowerGlobal.Supported := by
  have hdata : declared.data.Supported := by
    unfold data
    split
    · exact .pure _
    · exact (Supported.stringData _ _).bind fun label => .pure _
    · split
      · exact rfl
      · exact .ite (.pure _) (.pure _)
  exact .ite (.pure _) ((Supported.visit _).bind fun _ => hdata.bind fun data => trivial)

theorem Item.screens {program : Program} (h : program.WellFormed) {item : Item}
    (hmem : item ∈ program.items) :
    Screens (Expr.lacking item.codeNodes) (item.lower program.scopes) := by
  cases item with
  | global declared =>
      rw [codeNodes, Expr.lacking_nil]
      exact .of_supported declared.supported_lowerGlobal
  | function defined =>
      obtain ⟨result, types, table, -, -, -, hbody⟩ := (h.functions defined hmem).signature
      refine .visit (.afterSupported (.lift _) fun size => .afterSupported (.mark _) fun _ => ?_)
      refine .afterSupported (.ite (.emit _) (.pure _)) fun _ => ?_
      refine (screens_lowerStatements fun statement hstatement => ?_).thenSupported fun _ => ?_
      · exact (hbody statement hstatement).screens
      · exact (Supported.mark _).bind fun _ => (Supported.ite (.emit _) (.pure _)).bind fun _ => .emit _

/-- Lowering a program is refused what its nodes lack, and nothing else. -/
theorem Program.WellFormed.screens {program : Program} (h : program.WellFormed) :
    Screens (Expr.lacking (program.items.flatMap Item.codeNodes)) program.lower := by
  have hitems : ∀ items : List Item, items ⊆ program.items →
      Screens (Expr.lacking (items.flatMap Item.codeNodes))
        (items.forM (Item.lower program.scopes)) := by
    intro items hsubset
    induction items with
    | nil => exact Expr.lacking_nil
    | cons item items ih =>
        obtain ⟨hmem, hrest⟩ := List.cons_subset.mp hsubset
        rw [List.flatMap_cons, Expr.lacking_append]
        exact (Item.screens h hmem).bind fun _ => ih hrest
  refine .afterSupported (.mark _) fun _ => .afterSupported (.emit _) fun _ => ?_
  refine .afterSupported (.mark _) fun _ => .afterSupported (.emit _) fun _ => ?_
  exact (hitems _ (List.Subset.refl _)).thenSupported fun _ => .mark _

theorem Item.mem_flatMap_codeNodes {items : List Item} {node : Expr} :
    node ∈ items.flatMap codeNodes ↔
      ∃ function, .function function ∈ items ∧ node ∈ function.nodes := by
  rw [List.mem_flatMap]
  constructor
  · rintro ⟨item, hmem, hnode⟩
    cases item with
    | global declared => cases hnode
    | function defined => exact ⟨defined, hmem, hnode⟩
  · rintro ⟨function, hmem, hnode⟩
    exact ⟨.function function, hmem, hnode⟩

/-- A program that is lowered has no operation on pairs that the machine lacks anywhere in its
functions, and one that is refused for such an operation has it in one of them. -/
theorem Program.wide_operations_refused {tokens : List (Located Token)} {parsed : Parsed}
    (hparsed : Program.ofTokens tokens = .ok parsed) :
    (∀ lines, parsed.program.lines = .ok lines →
      ∀ function, .function function ∈ parsed.program.items →
        ∀ node ∈ function.nodes, node.missing? = none) ∧
    ∀ op here, parsed.program.lines = .error (.diagnosis ⟨.unsupported op, here⟩) →
      ∃ function, .function function ∈ parsed.program.items ∧
        ∃ node ∈ function.nodes, node.missing? = some op := by
  have hscreens := (Program.ofTokens_wellFormed hparsed).screens
  constructor
  · intro lines hlines function hmem node hnode
    obtain ⟨done, hdone, -⟩ := map_eq_ok.mp hlines
    have hempty := hscreens.given hdone
    exact Expr.lacking_eq_empty.mp hempty node (Item.mem_flatMap_codeNodes.mpr ⟨function, hmem, hnode⟩)
  · intro op here hlines
    obtain ⟨cause, place, hcause, hreason⟩ := hscreens.stopped (map_eq_error.mp hlines)
    cases cause with
    | breakdown cause => cases hreason
    | diagnosis cause =>
        simp only [Stop.map, Stop.diagnosis.injEq, Located.mk.injEq] at hreason
        obtain ⟨rfl, -⟩ := hreason
        obtain ⟨node, hnode, hmissing⟩ := hcause op rfl
        obtain ⟨function, hmem, hnode⟩ := Item.mem_flatMap_codeNodes.mp hnode
        exact ⟨function, hmem, node, hnode, hmissing⟩

/-- The tokens of a program that multiplies pairs where nothing ever goes, in the pointer through
which it stores, `char main() { char* p; while (0) *(p * p) = 1; return 0; }`. -/
def scaledTokens : List (Located Token) :=
  ([.keyword .charType, .identifier "main", .mark .openParen, .mark .closeParen, .mark .openBrace,
    .keyword .charType, .mark .star, .identifier "p", .mark .semicolon, .keyword .whileLoop,
    .mark .openParen, .integer 0, .mark .closeParen, .mark .star, .mark .openParen, .identifier "p",
    .mark .star, .identifier "p", .mark .closeParen, .mark .assign, .integer 1, .mark .semicolon,
    .keyword .returning, .integer 0, .mark .semicolon, .mark .closeBrace]
    : List Token).map (⟨·, .startOf "<input>"⟩)

/-- The tokens of a program that multiplies pairs outside its functions only,
`int n = 2 * 300; char main() { return 0; }`. -/
def foldedTokens : List (Located Token) :=
  ([.keyword .intType, .identifier "n", .mark .assign, .integer 2, .mark .star, .integer 300,
    .mark .semicolon, .keyword .charType, .identifier "main", .mark .openParen, .mark .closeParen,
    .mark .openBrace, .keyword .returning, .integer 0, .mark .semicolon, .mark .closeBrace]
    : List Token).map (⟨·, .startOf "<input>"⟩)

/-- What is read from the first of them. -/
def scaled : Parsed := (Program.ofTokens scaledTokens).toOption.getD ⟨⟨[], .initial⟩, []⟩

/-- What is read from the second of them. -/
def folded : Parsed := (Program.ofTokens foldedTokens).toOption.getD ⟨⟨[], .initial⟩, []⟩

/-- A product of pairs is refused, and one of constants is folded. -/
theorem scaled_refused :
    (∃ here, scaled.program.lines = .error (.diagnosis ⟨.unsupported .multiplication, here⟩)) ∧
      (∃ function, .function function ∈ scaled.program.items ∧
        ∃ node ∈ function.nodes, node.missing? = some .multiplication) ∧
      (∃ lines, folded.program.lines = .ok lines) ∧
      ∀ function, .function function ∈ folded.program.items →
        ∀ node ∈ function.nodes, node.missing? = none := by
  have hscaled : Program.ofTokens scaledTokens = .ok scaled := eq_ok_of_isOk (by decide +kernel) _
  have hfolded : Program.ofTokens foldedTokens = .ok folded := eq_ok_of_isOk (by decide +kernel) _
  have hlowered := eq_ok_of_isOk (show folded.program.lines.isOk = true by decide +kernel) []
  have hstops : scaled.program.lines.mapError (·.map Located.value) =
      .error (.diagnosis (.unsupported .multiplication)) := by decide +kernel
  cases hlines : scaled.program.lines with
  | ok lines => simp [hlines, Except.mapError] at hstops
  | error stop =>
      cases stop with
      | breakdown cause => simp [hlines, Except.mapError, Stop.map] at hstops
      | diagnosis entry =>
          obtain ⟨cause, here⟩ := entry
          obtain rfl : cause = .unsupported .multiplication := by
            simpa [hlines, Except.mapError, Stop.map] using hstops
          exact ⟨⟨here, rfl⟩, (Program.wide_operations_refused hscaled).2 _ _ hlines,
            ⟨_, hlowered⟩, (Program.wide_operations_refused hfolded).1 _ hlowered⟩

end AccumulatorC
