import Mathlib.Data.List.Perm.Basic
import AccumulatorC.Proofs.Program.Nodes

/-!
# Calls and string literals

What a source mentions besides calculations, in the order of its tokens: the functions that it calls
and the string literals. A step of a place is written once, but the place stands twice in the tree,
as what is assigned to and as what the neighbouring value is calculated from. So an expression is
evaluated as it is written, and the operands of its steps once more.
-/

namespace AccumulatorC

/-- A call of a function, or a string literal. -/
inductive Mention
  | call (function : String)
  | text (bytes : List UInt8)
  deriving DecidableEq, Repr

/-! ## In tokens -/

/-- The calls and string literals in tokens. The head of a function is written like a call. -/
def mentions : List Token → List Mention
  | [] => []
  | .identifier name :: .mark .openParen :: rest => .call name :: mentions rest
  | .string bytes :: rest => .text bytes :: mentions rest
  | _ :: rest => mentions rest

/-- Whether a token mentions nothing, whatever follows it. -/
def Token.isQuiet : Token → Bool
  | .identifier _ | .string _ => false
  | _ => true

theorem mentions_quiet {token : Token} (h : token.isQuiet = true) (rest : List Token) :
    mentions (token :: rest) = mentions rest := by
  cases token with
  | identifier => cases h
  | string => cases h
  | _ => rw [mentions] <;> simp

theorem mentions_call (name : String) (rest : List Token) :
    mentions (.identifier name :: .mark .openParen :: rest) = .call name :: mentions rest := rfl

theorem mentions_string (bytes : List UInt8) (rest : List Token) :
    mentions (.string bytes :: rest) = .text bytes :: mentions rest := by
  rw [mentions]

/-- A name that is not called. -/
theorem mentions_identifier {name : String} {rest : List Token}
    (h : rest.head? ≠ some (.mark .openParen)) :
    mentions (.identifier name :: rest) = mentions rest := by
  rw [mentions]
  · rintro _ others ⟨⟩ rfl
    exact h rfl
  · rintro _ ⟨⟩

/-- No call reaches into tokens that do not open a parenthesis first. -/
theorem mentions_append (before : List Token) {rest : List Token}
    (h : rest.head? ≠ some (.mark .openParen)) :
    mentions (before ++ rest) = mentions before ++ mentions rest := by
  induction before with
  | nil => rfl
  | cons token before ih =>
      rw [List.cons_append]
      cases token with
      | string bytes => rw [mentions_string, mentions_string, ih, List.cons_append]
      | identifier name =>
          by_cases hcall : before.head? = some (.mark .openParen)
          · obtain ⟨more, rfl⟩ := List.head?_eq_some_iff.mp hcall
            rw [List.cons_append, mentions_quiet rfl, mentions_quiet rfl] at ih
            rw [List.cons_append, mentions_call, mentions_call, ih, List.cons_append]
          · have hhead : (before ++ rest).head? ≠ some (.mark .openParen) := by
              cases before with
              | nil => exact h
              | cons first before => exact hcall
            rw [mentions_identifier hcall, mentions_identifier hhead, ih]
      | _ => rw [mentions_quiet rfl, mentions_quiet rfl, ih]

/-! ## In trees -/

/-- Whether an expression is the neighbouring value of a place. Only steps are built of it. -/
def Expr.isNeighbour : Expr → Bool
  | unary _ op operand => op.steps && operand.isPlace
  | _ => false

mutual

/-- The calls and string literals of an expression, as they are written. -/
def Expr.written : Expr → List Mention
  | .number _ _ | .name _ _ => []
  | .string _ bytes => [.text bytes]
  | .assign _ target value =>
      if value.isNeighbour then target.written else target.written ++ value.written
  | .binary _ _ left right => left.written ++ right.written
  | .unary _ _ operand => operand.written
  | .call _ function arguments => .call function.name :: Expr.allWritten arguments

/-- The same for expressions one after the other. -/
def Expr.allWritten : List Expr → List Mention
  | [] => []
  | e :: rest => e.written ++ Expr.allWritten rest

end

mutual

/-- The calls and string literals of an expression in the order in which it is evaluated: the
arguments of a call before it, and what is assigned before the place that it is assigned to. -/
def Expr.evaluated : Expr → List Mention
  | .number _ _ | .name _ _ => []
  | .string _ bytes => [.text bytes]
  | .assign _ target value => value.evaluated ++ target.evaluated
  | .binary _ _ left right => left.evaluated ++ right.evaluated
  | .unary _ _ operand => operand.evaluated
  | .call _ function arguments => Expr.allEvaluated arguments ++ [.call function.name]

/-- The same for expressions one after the other. -/
def Expr.allEvaluated : List Expr → List Mention
  | [] => []
  | e :: rest => e.evaluated ++ Expr.allEvaluated rest

end

mutual

/-- The calls and string literals that are evaluated though they are not written again: those that
the neighbouring value of a step is calculated from. -/
def Expr.repeated : Expr → List Mention
  | .number _ _ | .name _ _ | .string _ _ => []
  | .assign _ target value =>
      if value.isNeighbour then value.evaluated ++ target.repeated
      else target.repeated ++ value.repeated
  | .binary _ _ left right => left.repeated ++ right.repeated
  | .unary _ _ operand => operand.repeated
  | .call _ _ arguments => Expr.allRepeated arguments

/-- The same for expressions one after the other. -/
def Expr.allRepeated : List Expr → List Mention
  | [] => []
  | e :: rest => e.repeated ++ Expr.allRepeated rest

end

/-- Parts that are put together in the same order on both sides. -/
theorem perm_append_parts {α : Type} {whole whole' part part' rest rest' : List α}
    (h : whole.Perm (part ++ rest)) (h' : whole'.Perm (part' ++ rest')) :
    (whole ++ whole').Perm ((part ++ part') ++ (rest ++ rest')) := by
  refine (h.append h').trans ?_
  rw [List.append_assoc, List.append_assoc]
  refine List.Perm.append_left part ?_
  rw [← List.append_assoc, ← List.append_assoc]
  exact List.perm_append_comm.append_right rest'

mutual

/-- What is evaluated is what is written, and what is evaluated once more. -/
theorem Expr.evaluated_perm : ∀ e : Expr, e.evaluated.Perm (e.written ++ e.repeated)
  | .number _ _ => .refl _
  | .name _ _ => .refl _
  | .string _ _ => .refl _
  | .assign _ target value => by
      rw [Expr.evaluated, Expr.written, Expr.repeated]
      refine List.perm_append_comm.trans ?_
      split
      · refine (target.evaluated_perm.append_right _).trans ?_
        rw [List.append_assoc]
        exact List.perm_append_comm.append_left _
      · exact perm_append_parts target.evaluated_perm value.evaluated_perm
  | .binary _ _ left right => perm_append_parts left.evaluated_perm right.evaluated_perm
  | .unary _ _ operand => operand.evaluated_perm
  | .call _ _ arguments =>
      (List.perm_append_singleton _ _).trans ((Expr.allEvaluated_perm arguments).cons _)

/-- What expressions evaluate is what is written in them and what their steps repeat. -/
theorem Expr.allEvaluated_perm : ∀ arguments : List Expr,
    (Expr.allEvaluated arguments).Perm (Expr.allWritten arguments ++ Expr.allRepeated arguments)
  | [] => .refl _
  | e :: rest => perm_append_parts e.evaluated_perm (Expr.allEvaluated_perm rest)

end

/-- What an expression by itself evaluates once more: what stands in the operand of a step. -/
def Expr.again : Expr → List Mention
  | assign _ _ value => if value.isNeighbour then value.evaluated else []
  | _ => []

mutual

/-- What a step repeats is evaluated. -/
theorem Expr.again_subset : ∀ (e : Expr) {node : Expr}, node ∈ e.nodes → node.again ⊆ e.evaluated
  | .number _ _, node, h => by
      rw [List.mem_singleton.mp h]
      exact List.nil_subset _
  | .string _ _, node, h => by
      rw [List.mem_singleton.mp h]
      exact List.nil_subset _
  | .name _ _, node, h => by
      rw [List.mem_singleton.mp h]
      exact List.nil_subset _
  | .assign _ target value, node, h => by
      rw [Expr.evaluated]
      rw [Expr.nodes, List.mem_cons, List.mem_append] at h
      rcases h with rfl | h | h
      · rw [Expr.again]
        split
        · exact List.subset_append_left _ _
        · exact List.nil_subset _
      · exact List.Subset.trans (target.again_subset h) (List.subset_append_right _ _)
      · exact List.Subset.trans (value.again_subset h) (List.subset_append_left _ _)
  | .binary _ _ left right, node, h => by
      rw [Expr.evaluated]
      rw [Expr.nodes, List.mem_cons, List.mem_append] at h
      rcases h with rfl | h | h
      · exact List.nil_subset _
      · exact List.Subset.trans (left.again_subset h) (List.subset_append_left _ _)
      · exact List.Subset.trans (right.again_subset h) (List.subset_append_right _ _)
  | .unary _ _ operand, node, h => by
      rw [Expr.nodes, List.mem_cons] at h
      rcases h with rfl | h
      · exact List.nil_subset _
      · exact operand.again_subset h
  | .call _ _ arguments, node, h => by
      rw [Expr.evaluated]
      rw [Expr.nodes, List.mem_cons] at h
      rcases h with rfl | h
      · exact List.nil_subset _
      · exact List.Subset.trans (Expr.allAgain_subset arguments h) (List.subset_append_left _ _)

theorem Expr.allAgain_subset : ∀ (arguments : List Expr) {node : Expr},
    node ∈ Expr.allNodes arguments → node.again ⊆ Expr.allEvaluated arguments
  | [], node, h => by cases h
  | e :: rest, node, h => by
      rw [Expr.allEvaluated]
      rw [Expr.allNodes, List.mem_append] at h
      rcases h with h | h
      · exact List.Subset.trans (e.again_subset h) (List.subset_append_left _ _)
      · exact List.Subset.trans (Expr.allAgain_subset rest h) (List.subset_append_right _ _)

end

mutual

/-- Nothing is evaluated once more when no part of an expression does so by itself. -/
theorem Expr.repeated_eq_nil_iff : ∀ e : Expr, e.repeated = [] ↔ ∀ node ∈ e.nodes, node.again = []
  | .number _ _ => by simp [Expr.repeated, Expr.nodes, Expr.again]
  | .string _ _ => by simp [Expr.repeated, Expr.nodes, Expr.again]
  | .name _ _ => by simp [Expr.repeated, Expr.nodes, Expr.again]
  | .assign _ target value => by
      have htarget := target.repeated_eq_nil_iff
      have hvalue := value.repeated_eq_nil_iff
      rw [Expr.repeated, Expr.nodes, List.forall_mem_cons, List.forall_mem_append, ← htarget,
        Expr.again]
      split
      · rw [List.append_eq_nil_iff]
        constructor
        · rintro ⟨hnone, hplace⟩
          refine ⟨hnone, hplace, fun node hnode => ?_⟩
          exact List.subset_nil.mp (hnone ▸ value.again_subset hnode)
        · rintro ⟨hnone, hplace, -⟩
          exact ⟨hnone, hplace⟩
      · rw [List.append_eq_nil_iff, hvalue]
        exact (and_iff_right rfl).symm
  | .binary _ _ left right => by
      rw [Expr.repeated, Expr.nodes, List.forall_mem_cons, List.forall_mem_append,
        ← left.repeated_eq_nil_iff, ← right.repeated_eq_nil_iff, List.append_eq_nil_iff]
      exact (and_iff_right rfl).symm
  | .unary _ _ operand => by
      rw [Expr.repeated, Expr.nodes, List.forall_mem_cons, ← operand.repeated_eq_nil_iff]
      exact (and_iff_right rfl).symm
  | .call _ _ arguments => by
      rw [Expr.repeated, Expr.nodes, List.forall_mem_cons, ← Expr.allRepeated_eq_nil_iff arguments]
      exact (and_iff_right rfl).symm

theorem Expr.allRepeated_eq_nil_iff : ∀ arguments : List Expr,
    Expr.allRepeated arguments = [] ↔ ∀ node ∈ Expr.allNodes arguments, node.again = []
  | [] => by simp [Expr.allRepeated, Expr.allNodes]
  | e :: rest => by
      rw [Expr.allRepeated, Expr.allNodes, List.forall_mem_append, ← e.repeated_eq_nil_iff,
        ← Expr.allRepeated_eq_nil_iff rest, List.append_eq_nil_iff]

end

/-! ## In statements -/

mutual

/-- What is gathered from the expressions of a statement. -/
def Statement.gather (f : Expr → List Mention) : Statement → List Mention
  | .declaration declared => declared.initial.elim [] f
  | .expression value => f value
  | .returning value _ _ => value.elim [] f
  | .branch condition yes no _ =>
      f condition ++ yes.gather f ++
        match no with
        | some no => no.gather f
        | none => []
  | .loop condition body _ => f condition ++ body.gather f
  | .block _ body _ => Statement.gatherAll f body

/-- What is gathered from the expressions of statements one after the other. -/
def Statement.gatherAll (f : Expr → List Mention) : List Statement → List Mention
  | [] => []
  | statement :: rest => statement.gather f ++ Statement.gatherAll f rest

end

/-- A branch gathers from its condition and both of its parts. -/
theorem Statement.gather_branch (f : Expr → List Mention) (condition : Expr) (yes : Statement)
    (no : Option Statement) (location : Location) :
    (Statement.branch condition yes no location).gather f =
      f condition ++ (yes.gather f ++ no.elim [] (Statement.gather f)) := by
  cases no <;> simp [Statement.gather]

section Gathering

variable {f whole part rest : Expr → List Mention}

theorem elim_perm (h : ∀ e, (whole e).Perm (part e ++ rest e)) (value : Option Expr) :
    (value.elim [] whole).Perm (value.elim [] part ++ value.elim [] rest) := by
  cases value with
  | none => exact .refl _
  | some value => exact h value

mutual

/-- What is gathered from a statement can be split as it is for expressions. -/
theorem Statement.gather_perm (h : ∀ e, (whole e).Perm (part e ++ rest e)) :
    ∀ statement : Statement,
      (statement.gather whole).Perm (statement.gather part ++ statement.gather rest)
  | .declaration declared => elim_perm h declared.initial
  | .expression value => h value
  | .returning value _ _ => elim_perm h value
  | .branch condition yes none _ =>
      perm_append_parts (perm_append_parts (h condition) (yes.gather_perm h)) (.refl _)
  | .branch condition yes (some no) _ =>
      perm_append_parts (perm_append_parts (h condition) (yes.gather_perm h)) (no.gather_perm h)
  | .loop condition body _ => perm_append_parts (h condition) (body.gather_perm h)
  | .block _ body _ => Statement.gatherAll_perm h body

theorem Statement.gatherAll_perm (h : ∀ e, (whole e).Perm (part e ++ rest e)) :
    ∀ body : List Statement, (Statement.gatherAll whole body).Perm
      (Statement.gatherAll part body ++ Statement.gatherAll rest body)
  | [] => .refl _
  | statement :: body =>
      perm_append_parts (statement.gather_perm h) (Statement.gatherAll_perm h body)

end

theorem elim_eq_nil_iff {good : Expr → Prop} (h : ∀ e, f e = [] ↔ ∀ node ∈ e.nodes, good node)
    (value : Option Expr) :
    value.elim [] f = [] ↔ ∀ node ∈ value.elim [] Expr.nodes, good node := by
  cases value with
  | none => simp
  | some value => exact h value

mutual

/-- Nothing is gathered from a statement exactly if all its expressions are good. -/
theorem Statement.gather_eq_nil_iff {good : Expr → Prop}
    (h : ∀ e, f e = [] ↔ ∀ node ∈ e.nodes, good node) :
    ∀ statement : Statement, statement.gather f = [] ↔ ∀ node ∈ statement.nodes, good node
  | .declaration declared => elim_eq_nil_iff h declared.initial
  | .expression value => h value
  | .returning value _ _ => elim_eq_nil_iff h value
  | .branch condition yes none _ => by
      rw [Statement.gather, Statement.nodes, List.append_nil, List.append_nil,
        List.append_eq_nil_iff, List.forall_mem_append, h condition, yes.gather_eq_nil_iff h]
  | .branch condition yes (some no) _ => by
      rw [Statement.gather, Statement.nodes, List.append_eq_nil_iff, List.append_eq_nil_iff,
        List.forall_mem_append, List.forall_mem_append, h condition, yes.gather_eq_nil_iff h,
        no.gather_eq_nil_iff h]
  | .loop condition body _ => by
      rw [Statement.gather, Statement.nodes, List.append_eq_nil_iff, List.forall_mem_append,
        h condition, body.gather_eq_nil_iff h]
  | .block _ body _ => Statement.gatherAll_eq_nil_iff h body

theorem Statement.gatherAll_eq_nil_iff {good : Expr → Prop}
    (h : ∀ e, f e = [] ↔ ∀ node ∈ e.nodes, good node) :
    ∀ body : List Statement,
      Statement.gatherAll f body = [] ↔ ∀ node ∈ Statement.allNodes body, good node
  | [] => by simp [Statement.gatherAll, Statement.allNodes]
  | statement :: body => by
      rw [Statement.gatherAll, Statement.allNodes, List.append_eq_nil_iff, List.forall_mem_append,
        statement.gather_eq_nil_iff h, Statement.gatherAll_eq_nil_iff h body]

end

end Gathering

/-! ## In functions -/

namespace Function

/-- The calls and string literals in the body of a function, as they are written. -/
def written (function : Function) : List Mention := Statement.gatherAll Expr.written function.body

/-- The calls and string literals in the body of a function in the order in which its code has
them. -/
def evaluated (function : Function) : List Mention :=
  Statement.gatherAll Expr.evaluated function.body

/-- The calls and string literals in the body of a function that its code has once more. -/
def repeated (function : Function) : List Mention := Statement.gatherAll Expr.repeated function.body

theorem evaluated_perm (function : Function) :
    function.evaluated.Perm (function.written ++ function.repeated) :=
  Statement.gatherAll_perm Expr.evaluated_perm function.body

theorem repeated_eq_nil_iff (function : Function) :
    function.repeated = [] ↔ ∀ node ∈ function.nodes, node.again = [] :=
  Statement.gatherAll_eq_nil_iff Expr.repeated_eq_nil_iff function.body

/-- The code has what is written, each once, when no step has a call or a string literal in its
operand. -/
theorem evaluated_perm_written_iff (function : Function) :
    function.evaluated.Perm function.written ↔ ∀ node ∈ function.nodes, node.again = [] := by
  rw [← function.repeated_eq_nil_iff]
  constructor
  · intro h
    have hlength := (function.evaluated_perm.symm.trans h).length_eq
    rw [List.length_append] at hlength
    exact List.eq_nil_of_length_eq_zero (by omega)
  · intro h
    simpa [h] using function.evaluated_perm

end Function

/-- The calls and string literals of an item, as they are written, and the head of a function. -/
def Item.written : Item → List Mention
  | .global declared => declared.initial.elim [] Expr.written
  | .function defined => .call defined.symbol.name :: defined.written

end AccumulatorC
