import AccumulatorC.Proofs.Program.Frames

/-!
# The expressions of a function

Every expression that occurs in a function, also as a part of others. Each of them is well-formed
in the scope that it carries, and that scope lies inside the function.
-/

namespace AccumulatorC

mutual

/-- An expression and all its parts. -/
def Expr.nodes : Expr → List Expr
  | .number note value => [.number note value]
  | .string note bytes => [.string note bytes]
  | .name note symbol => [.name note symbol]
  | .assign note target value => .assign note target value :: (target.nodes ++ value.nodes)
  | .binary note op left right => .binary note op left right :: (left.nodes ++ right.nodes)
  | .unary note op operand => .unary note op operand :: operand.nodes
  | .call note function arguments => .call note function arguments :: Expr.allNodes arguments

/-- Expressions and all their parts. -/
def Expr.allNodes : List Expr → List Expr
  | [] => []
  | e :: rest => e.nodes ++ Expr.allNodes rest

end

/-- Whether no function is called. -/
def Expr.isCallFree (e : Expr) : Bool := e.nodes.all fun node => !node.isCall

mutual

/-- The expressions of a statement and all their parts. -/
def Statement.nodes : Statement → List Expr
  | .declaration declared => declared.initial.elim [] Expr.nodes
  | .expression value => value.nodes
  | .returning value _ _ => value.elim [] Expr.nodes
  | .branch condition yes no _ =>
      condition.nodes ++ yes.nodes ++
        match no with
        | some no => no.nodes
        | none => []
  | .loop condition body _ => condition.nodes ++ body.nodes
  | .block _ body _ => Statement.allNodes body

/-- The expressions of statements and all their parts. -/
def Statement.allNodes : List Statement → List Expr
  | [] => []
  | statement :: rest => statement.nodes ++ Statement.allNodes rest

end

/-- Whether no function is called. -/
def Statement.isCallFree (statement : Statement) : Bool :=
  statement.nodes.all fun node => !node.isCall

/-- The expressions in the body of a function. -/
def Function.nodes (function : Function) : List Expr := Statement.allNodes function.body

/-- The expressions of an item and all their parts. -/
def Item.nodes : Item → List Expr
  | .global declared => declared.initial.elim [] Expr.nodes
  | .function defined => defined.nodes

/-- The expressions that occur in a program. -/
def Program.nodes (program : Program) : List Expr := program.items.flatMap Item.nodes

mutual

/-- The expressions whose values are asked for when that of an expression is. Places that are
stored in, or whose addresses are taken, are not among them. -/
def Expr.values : Expr → List Expr
  | .number note value => [.number note value]
  | .string note bytes => [.string note bytes]
  | .name note symbol => [.name note symbol]
  | .assign note target value =>
      .assign note target value ::
        (value.values ++
          match target with
          | .unary _ .deref pointer => pointer.values
          | _ => [])
  | .binary note op left right => .binary note op left right :: (left.values ++ right.values)
  | .unary note .addressOf operand =>
      .unary note .addressOf operand ::
        match operand with
        | .unary _ .deref pointer => pointer.values
        | _ => []
  | .unary note op operand => .unary note op operand :: operand.values
  | .call note function arguments => .call note function arguments :: Expr.allValues arguments

/-- The same for expressions one after the other. -/
def Expr.allValues : List Expr → List Expr
  | [] => []
  | e :: rest => e.values ++ Expr.allValues rest

end

/-- The same for an expression that stands as a statement: a call need not have a value. -/
def Expr.discardedValues : Expr → List Expr
  | .call _ _ arguments => Expr.allValues arguments
  | e => e.values

mutual

/-- The expressions of a statement whose values are asked for. -/
def Statement.values : Statement → List Expr
  | .declaration declared => declared.initial.elim [] Expr.values
  | .expression value => value.discardedValues
  | .returning value _ _ => value.elim [] Expr.values
  | .branch condition yes no _ =>
      condition.values ++ yes.values ++
        match no with
        | some no => no.values
        | none => []
  | .loop condition body _ => condition.values ++ body.values
  | .block _ body _ => Statement.allValues body

/-- The expressions of statements whose values are asked for. -/
def Statement.allValues : List Statement → List Expr
  | [] => []
  | statement :: rest => statement.values ++ Statement.allValues rest

end

/-- The expressions in the body of a function whose values are asked for. -/
def Function.values (function : Function) : List Expr := Statement.allValues function.body

mutual

/-- A statement and all statements in it. -/
def Statement.parts : Statement → List Statement
  | .declaration declared => [.declaration declared]
  | .expression value => [.expression value]
  | .returning value scope location => [.returning value scope location]
  | .branch condition yes no location =>
      .branch condition yes no location ::
        (yes.parts ++
          match no with
          | some no => no.parts
          | none => [])
  | .loop condition body location => .loop condition body location :: body.parts
  | .block scope body location => .block scope body location :: Statement.allParts body

/-- Statements and all statements in them. -/
def Statement.allParts : List Statement → List Statement
  | [] => []
  | statement :: rest => statement.parts ++ Statement.allParts rest

end

/-- The statements in the body of a function. -/
def Function.statements (function : Function) : List Statement := Statement.allParts function.body

/-- The statements of a program and all statements in them. -/
def Program.statements (program : Program) : List Statement :=
  program.items.flatMap fun
    | .global _ => []
    | .function defined => defined.statements

/-- How many string literals there are in an expression. -/
def Expr.strings (e : Expr) : Nat := e.nodes.countP Expr.isString

/-- How many string literals there are in a statement. -/
def Statement.strings (statement : Statement) : Nat := statement.nodes.countP Expr.isString

/-- The nodes of several expressions are the nodes of each. -/
theorem Expr.mem_allNodes {arguments : List Expr} {node : Expr} :
    node ∈ Expr.allNodes arguments ↔ ∃ e ∈ arguments, node ∈ e.nodes := by
  induction arguments with
  | nil => simp [Expr.allNodes]
  | cons e rest ih => simp [Expr.allNodes, ih]

theorem Statement.mem_allNodes {body : List Statement} {node : Expr} :
    node ∈ Statement.allNodes body ↔ ∃ statement ∈ body, node ∈ statement.nodes := by
  induction body with
  | nil => simp [Statement.allNodes]
  | cons statement rest ih => simp [Statement.allNodes, ih]

theorem Expr.mem_allValues {arguments : List Expr} {node : Expr} :
    node ∈ Expr.allValues arguments ↔ ∃ e ∈ arguments, node ∈ e.values := by
  induction arguments with
  | nil => simp [Expr.allValues]
  | cons e rest ih => simp [Expr.allValues, ih]

theorem Statement.mem_allValues {body : List Statement} {node : Expr} :
    node ∈ Statement.allValues body ↔ ∃ statement ∈ body, node ∈ statement.values := by
  induction body with
  | nil => simp [Statement.allValues]
  | cons statement rest ih => simp [Statement.allValues, ih]

theorem Statement.mem_allParts {body : List Statement} {part : Statement} :
    part ∈ Statement.allParts body ↔ ∃ statement ∈ body, part ∈ statement.parts := by
  induction body with
  | nil => simp [Statement.allParts]
  | cons statement rest ih => simp [Statement.allParts, ih]

theorem Expr.mem_nodes_self (e : Expr) : e ∈ e.nodes := by
  cases e <;> exact List.mem_cons_self

/-- Expressions among which are the parts of each. -/
def Expr.PartsIn (list : List Expr) : Prop := ∀ e ∈ list, e.nodes ⊆ list

section PartsIn

variable {e : Expr} {first second : List Expr}

theorem Expr.PartsIn.append (hfirst : PartsIn first) (hsecond : PartsIn second) :
    PartsIn (first ++ second) := by
  intro e he
  rcases List.mem_append.mp he with he | he
  · exact List.subset_append_of_subset_left _ (hfirst e he)
  · exact List.subset_append_of_subset_right _ (hsecond e he)

theorem Expr.PartsIn.nodes (h : PartsIn first) (hnodes : e.nodes = e :: first) :
    PartsIn e.nodes := by
  intro node hnode
  rw [hnodes] at hnode
  rcases List.mem_cons.mp hnode with rfl | hnode
  · exact List.Subset.refl _
  · rw [hnodes]
    exact List.subset_cons_of_subset _ (h node hnode)

theorem Expr.partsIn_nil : PartsIn [] := fun _ he => nomatch he

end PartsIn

mutual

theorem Expr.nodes_partsIn : ∀ e : Expr, PartsIn e.nodes
  | .number _ _ | .string _ _ | .name _ _ => partsIn_nil.nodes rfl
  | .assign _ target value => (target.nodes_partsIn.append value.nodes_partsIn).nodes rfl
  | .binary _ _ left right => (left.nodes_partsIn.append right.nodes_partsIn).nodes rfl
  | .unary _ _ operand => operand.nodes_partsIn.nodes rfl
  | .call _ _ arguments => (Expr.allNodes_partsIn arguments).nodes rfl

theorem Expr.allNodes_partsIn : ∀ list : List Expr, PartsIn (Expr.allNodes list)
  | [] => partsIn_nil
  | e :: rest => e.nodes_partsIn.append (Expr.allNodes_partsIn rest)

end

mutual

theorem Statement.nodes_partsIn : ∀ statement : Statement, Expr.PartsIn statement.nodes
  | .declaration ⟨_, none⟩ | .returning none _ _ => Expr.partsIn_nil
  | .declaration ⟨_, some value⟩ | .returning (some value) _ _ | .expression value =>
      value.nodes_partsIn
  | .branch condition yes (some no) _ =>
      (condition.nodes_partsIn.append yes.nodes_partsIn).append no.nodes_partsIn
  | .branch condition yes none _ =>
      (condition.nodes_partsIn.append yes.nodes_partsIn).append Expr.partsIn_nil
  | .loop condition body _ => condition.nodes_partsIn.append body.nodes_partsIn
  | .block _ body _ => Statement.allNodes_partsIn body

theorem Statement.allNodes_partsIn : ∀ body : List Statement,
    Expr.PartsIn (Statement.allNodes body)
  | [] => Expr.partsIn_nil
  | statement :: rest => statement.nodes_partsIn.append (Statement.allNodes_partsIn rest)

end

/-- The parts of an expression of a program are expressions of it. -/
theorem Program.nodes_partsIn (program : Program) : Expr.PartsIn program.nodes := by
  intro e he node hnode
  obtain ⟨item, hitem, he⟩ := List.mem_flatMap.mp he
  refine List.mem_flatMap.mpr ⟨item, hitem, ?_⟩
  cases item with
  | global declared =>
      obtain ⟨symbol, initial⟩ := declared
      cases initial with
      | none => cases he
      | some value => exact value.nodes_partsIn e he hnode
  | function defined => exact Statement.allNodes_partsIn defined.body e he hnode

mutual

/-- The expressions of a statement in another one are among those of the other one. -/
theorem Statement.nodes_subset_of_part : ∀ {statement part : Statement}, part ∈ statement.parts →
    part.nodes ⊆ statement.nodes
  | .declaration _, _, h | .expression _, _, h | .returning _ _ _, _, h => by
      cases List.mem_singleton.mp h
      exact List.Subset.refl _
  | .branch condition yes (some no) location, part, h => by
      rcases List.mem_cons.mp h with rfl | h
      · exact List.Subset.refl _
      · rw [Statement.nodes]
        rcases List.mem_append.mp h with h | h
        · exact List.subset_append_of_subset_left _
            (List.subset_append_of_subset_right _ (Statement.nodes_subset_of_part h))
        · exact List.subset_append_of_subset_right _ (Statement.nodes_subset_of_part h)
  | .branch condition yes none location, part, h => by
      rcases List.mem_cons.mp h with rfl | h
      · exact List.Subset.refl _
      · rw [List.append_nil] at h
        rw [Statement.nodes, List.append_nil]
        exact List.subset_append_of_subset_right _ (Statement.nodes_subset_of_part h)
  | .loop condition body location, part, h => by
      rcases List.mem_cons.mp h with rfl | h
      · exact List.Subset.refl _
      · exact List.subset_append_of_subset_right _ (Statement.nodes_subset_of_part h)
  | .block scope body location, part, h => by
      rcases List.mem_cons.mp h with rfl | h
      · exact List.Subset.refl _
      · exact Statement.nodes_subset_of_allParts h

theorem Statement.nodes_subset_of_allParts : ∀ {body : List Statement} {part : Statement},
    part ∈ Statement.allParts body → part.nodes ⊆ Statement.allNodes body
  | statement :: rest, part, h => by
      rcases List.mem_append.mp h with h | h
      · exact List.subset_append_of_subset_left _ (Statement.nodes_subset_of_part h)
      · exact List.subset_append_of_subset_right _ (Statement.nodes_subset_of_allParts h)

end

theorem Statement.isCallFree_branch {condition : Expr} {yes : Statement} {no : Option Statement}
    {location : Location} :
    (Statement.branch condition yes no location).isCallFree =
      (condition.isCallFree && yes.isCallFree && no.elim true Statement.isCallFree) := by
  cases no <;> simp [Statement.isCallFree, Statement.nodes, Expr.isCallFree, Bool.and_assoc]

theorem Statement.isCallFree_loop {condition : Expr} {body : Statement} {location : Location} :
    (Statement.loop condition body location).isCallFree =
      (condition.isCallFree && body.isCallFree) := by
  simp [Statement.isCallFree, Statement.nodes, Expr.isCallFree]

theorem Statement.allNodes_isCallFree {body : List Statement}
    (h : ∀ e ∈ Statement.allNodes body, e.isCall = false) {statement : Statement}
    (hmem : statement ∈ body) : statement.isCallFree = true := by
  rw [Statement.isCallFree, List.all_eq_true]
  intro e he
  rw [h e (Statement.mem_allNodes.mpr ⟨statement, hmem, he⟩)]
  rfl

section WellFormed

variable {scopes : Scopes} {scope outer : ScopeId}

theorem Expr.WellFormed.note_scope {e : Expr} (h : e.WellFormed scopes scope) :
    e.note.scope = scope := by
  cases h <;> assumption

/-- All nodes of a well-formed expression are well-formed. -/
theorem Expr.WellFormed.node {e node : Expr} (h : e.WellFormed scopes scope)
    (hnode : node ∈ e.nodes) : node.WellFormed scopes scope := by
  induction h with
  | number hscope hconstant htype =>
      rw [Expr.nodes, List.mem_singleton] at hnode
      exact hnode ▸ .number hscope hconstant htype
  | string hscope hconstant htype =>
      rw [Expr.nodes, List.mem_singleton] at hnode
      exact hnode ▸ .string hscope hconstant htype
  | name hscope hconstant htype hfunction hvisible =>
      rw [Expr.nodes, List.mem_singleton] at hnode
      exact hnode ▸ .name hscope hconstant htype hfunction hvisible
  | assign hscope hconstant hplace htype haccepts htarget hvalue ihtarget ihvalue =>
      rw [Expr.nodes, List.mem_cons, List.mem_append] at hnode
      rcases hnode with rfl | hnode | hnode
      · exact .assign hscope hconstant hplace htype haccepts htarget hvalue
      · exact ihtarget hnode
      · exact ihvalue hnode
  | binary hscope hconstant hcombines hleft hright ihleft ihright =>
      rw [Expr.nodes, List.mem_cons, List.mem_append] at hnode
      rcases hnode with rfl | hnode | hnode
      · exact .binary hscope hconstant hcombines hleft hright
      · exact ihleft hnode
      · exact ihright hnode
  | addressOf hscope hconstant hplace htype hoperand ih =>
      rw [Expr.nodes, List.mem_cons] at hnode
      rcases hnode with rfl | hnode
      · exact .addressOf hscope hconstant hplace htype hoperand
      · exact ih hnode
  | deref hscope hconstant htype hoperand ih =>
      rw [Expr.nodes, List.mem_cons] at hnode
      rcases hnode with rfl | hnode
      · exact .deref hscope hconstant htype hoperand
      · exact ih hnode
  | keeping hop hscope hconstant hsteps htype hvalue hoperand ih =>
      rw [Expr.nodes, List.mem_cons] at hnode
      rcases hnode with rfl | hnode
      · exact .keeping hop hscope hconstant hsteps htype hvalue hoperand
      · exact ih hnode
  | call hscope hconstant htype hvisible haccepts harguments ih =>
      rw [Expr.nodes, List.mem_cons, Expr.mem_allNodes] at hnode
      rcases hnode with rfl | ⟨argument, hargument, hnode⟩
      · exact .call hscope hconstant htype hvisible haccepts harguments
      · exact ih argument hargument hnode

/-- The expressions of a statement are well-formed in scopes inside that of the statement. -/
theorem Statement.WellFormed.node (hwf : scopes.WellFormed) {result : Ty} {statement : Statement}
    (h : statement.WellFormed scopes result scope) (houter : outer ∈ scopes.chain scope)
    {node : Expr} (hnode : node ∈ statement.nodes) :
    node.WellFormed scopes node.note.scope ∧ outer ∈ scopes.chain node.note.scope := by
  have hpart : ∀ {e : Expr} {inner : ScopeId}, e.WellFormed scopes inner →
      outer ∈ scopes.chain inner → node ∈ e.nodes →
      node.WellFormed scopes node.note.scope ∧ outer ∈ scopes.chain node.note.scope := by
    intro e inner he hinner hnode
    have hwhole := he.node hnode
    rw [hwhole.note_scope]
    exact ⟨hwhole, hinner⟩
  induction h with
  | @declaration scope declared hscope hvisible hinitial =>
      rw [Statement.nodes] at hnode
      cases hvalue : declared.initial with
      | none => simp [hvalue] at hnode
      | some value =>
          rw [hvalue] at hnode
          exact hpart (hinitial value hvalue).1 houter hnode
  | expression hvalue _ =>
      rw [Statement.nodes] at hnode
      exact hpart hvalue houter hnode
  | @returning scope value location hnone hvalue =>
      rw [Statement.nodes] at hnode
      cases value with
      | none => cases hnode
      | some given => exact hpart (hvalue given rfl).1 houter hnode
  | @branch scope condition yes no location hcondition _ hyes hno ihyes ihno =>
      cases no with
      | none =>
          simp only [Statement.nodes, List.append_nil, List.mem_append] at hnode
          rcases hnode with hnode | hnode
          · exact hpart hcondition houter hnode
          · exact ihyes houter hnode
      | some other =>
          simp only [Statement.nodes, List.mem_append] at hnode
          rcases hnode with (hnode | hnode) | hnode
          · exact hpart hcondition houter hnode
          · exact ihyes houter hnode
          · exact ihno other rfl houter hnode
  | loop hcondition _ hbody ih =>
      rw [Statement.nodes, List.mem_append] at hnode
      rcases hnode with hnode | hnode
      · exact hpart hcondition houter hnode
      · exact ih houter hnode
  | block hinner hparent hbody ih =>
      rw [Statement.nodes, Statement.mem_allNodes] at hnode
      obtain ⟨statement, hstatement, hnode⟩ := hnode
      apply ih statement hstatement _ hnode
      rw [Scopes.chain_of_parent hinner hparent (hwf.lt_of_parent hinner hparent)]
      exact List.mem_cons_of_mem _ houter

/-- The expressions of a function are well-formed in scopes inside that of its parameters. -/
theorem Function.WellFormed.node (hwf : scopes.WellFormed) {function : Function}
    (h : function.WellFormed scopes) {node : Expr} (hnode : node ∈ function.nodes) :
    node.WellFormed scopes node.note.scope ∧
      function.parameters ∈ scopes.chain node.note.scope := by
  obtain ⟨result, types, table, -, -, -, hbody⟩ := h.signature
  obtain ⟨inner, hinner, hparent⟩ := h.body
  obtain ⟨statement, hstatement, hnode⟩ := Statement.mem_allNodes.mp hnode
  apply (hbody statement hstatement).node hwf _ hnode
  rw [Scopes.chain_of_parent hinner hparent (hwf.lt_of_parent hinner hparent)]
  exact List.mem_cons_of_mem _ (Scopes.mem_chain_self _ _)

/-- The expressions of a program are well-formed in the scopes that they carry. -/
theorem Program.WellFormed.node {program : Program} (h : program.WellFormed) {node : Expr}
    (hnode : node ∈ program.nodes) : node.WellFormed program.scopes node.note.scope := by
  obtain ⟨item, hitem, hnode⟩ := List.mem_flatMap.mp hnode
  cases item with
  | function defined => exact ((h.functions defined hitem).node h.scopes hnode).1
  | global declared =>
      rw [Item.nodes] at hnode
      cases hinitial : declared.initial with
      | none =>
          rw [hinitial] at hnode
          cases hnode
      | some value =>
          rw [hinitial] at hnode
          have hwf := (h.globals declared value hitem hinitial).1.node hnode
          rwa [hwf.note_scope]

/-- The statements in a statement are well-formed in scopes inside its own. -/
theorem Statement.WellFormed.part (hwf : scopes.WellFormed) {result : Ty} {statement : Statement}
    (h : statement.WellFormed scopes result scope) (houter : outer ∈ scopes.chain scope)
    {part : Statement} (hpart : part ∈ statement.parts) :
    ∃ inner, part.WellFormed scopes result inner ∧ outer ∈ scopes.chain inner := by
  induction h with
  | @declaration scope declared hscope hvisible hinitial =>
      rw [Statement.parts, List.mem_singleton] at hpart
      exact ⟨scope, hpart ▸ .declaration hscope hvisible hinitial, houter⟩
  | @expression scope value hvalue hcall =>
      rw [Statement.parts, List.mem_singleton] at hpart
      exact ⟨scope, hpart ▸ .expression hvalue hcall, houter⟩
  | @returning scope value location hnone hvalue =>
      rw [Statement.parts, List.mem_singleton] at hpart
      exact ⟨scope, hpart ▸ .returning hnone hvalue, houter⟩
  | @branch scope condition yes no location hcondition hvalue hyes hno ihyes ihno =>
      cases no with
      | none =>
          simp only [Statement.parts, List.append_nil, List.mem_cons] at hpart
          rcases hpart with rfl | hpart
          · exact ⟨scope, .branch hcondition hvalue hyes hno, houter⟩
          · exact ihyes houter hpart
      | some other =>
          simp only [Statement.parts, List.mem_cons, List.mem_append] at hpart
          rcases hpart with rfl | hpart | hpart
          · exact ⟨scope, .branch hcondition hvalue hyes hno, houter⟩
          · exact ihyes houter hpart
          · exact ihno other rfl houter hpart
  | @loop scope condition body location hcondition hvalue hbody ih =>
      rw [Statement.parts, List.mem_cons] at hpart
      rcases hpart with rfl | hpart
      · exact ⟨scope, .loop hcondition hvalue hbody, houter⟩
      · exact ih houter hpart
  | @block scope inner table body location hinner hparent hbody ih =>
      rw [Statement.parts, List.mem_cons, Statement.mem_allParts] at hpart
      rcases hpart with rfl | ⟨statement, hstatement, hpart⟩
      · exact ⟨scope, .block hinner hparent hbody, houter⟩
      · apply ih statement hstatement _ hpart
        rw [Scopes.chain_of_parent hinner hparent (hwf.lt_of_parent hinner hparent)]
        exact List.mem_cons_of_mem _ houter

theorem Function.WellFormed.part (hwf : scopes.WellFormed) {function : Function} {result : Ty}
    (hbody : ∀ statement ∈ function.body, statement.WellFormed scopes result function.scope)
    {part : Statement} (hpart : part ∈ function.statements) :
    ∃ inner, part.WellFormed scopes result inner ∧ function.scope ∈ scopes.chain inner := by
  obtain ⟨statement, hstatement, hpart⟩ := Statement.mem_allParts.mp hpart
  exact (hbody statement hstatement).part hwf (Scopes.mem_chain_self _ _) hpart

/-- Arguments that parameters accept have values. -/
theorem Expr.isScalar_of_accepted {parameters : List Ty} {arguments : List Expr}
    (h : List.Forall₂ (fun parameter (argument : Expr) => parameter.Accepts argument.type)
      parameters arguments) {argument : Expr} (hmem : argument ∈ arguments) :
    argument.type.isScalar = true := by
  induction h with
  | nil => cases hmem
  | cons haccepts _ ih =>
      rcases List.mem_cons.mp hmem with rfl | hmem
      · exact haccepts.isScalar.2
      · exact ih hmem

/-- The values that an expression with a value needs are those of expressions with values. -/
theorem Expr.WellFormed.values_not_void {e : Expr} (h : e.WellFormed scopes scope)
    (hvoid : e.type.isVoid = false) : ∀ node ∈ e.values, node.type.isVoid = false := by
  have hpointer : ∀ {note : Note} {pointer : Expr},
      (Expr.unary note .deref pointer).WellFormed scopes scope → pointer.type.isVoid = false := by
    intro note pointer hderef
    rw [hderef.of_deref.2.1]
    rfl
  induction h using Expr.WellFormed.alongLowering with
  | number h => simpa [Expr.values] using hvoid
  | string h => simpa [Expr.values] using hvoid
  | name h => simpa [Expr.values] using hvoid
  | @assignName note inner symbol value h _ ih =>
      have haccepts : inner.type.Accepts value.type := by
        cases h
        assumption
      have hrest := ih (Ty.isVoid_of_isScalar haccepts.isScalar.2)
      simpa [Expr.values] using ⟨hvoid, hrest⟩
  | @assignDeref note inner pointer value h hvalue _ ihvalue ihpointer =>
      obtain ⟨haccepts, htarget⟩ : inner.type.Accepts value.type ∧
          (Expr.unary inner .deref pointer).WellFormed scopes scope := by
        cases h
        exact ⟨by assumption, by assumption⟩
      have hleft := ihvalue (Ty.isVoid_of_isScalar haccepts.isScalar.2)
      have hright := ihpointer (hpointer htarget)
      intro node hnode
      simp only [Expr.values, List.mem_cons, List.mem_append] at hnode
      rcases hnode with rfl | hnode | hnode
      · exact hvoid
      · exact hleft node hnode
      · exact hright node hnode
  | @binary note op left right h _ _ ihleft ihright =>
      have hcombines : left.type.Combines right.type note.type := by
        cases h
        assumption
      intro node hnode
      rw [Expr.values, List.mem_cons, List.mem_append] at hnode
      rcases hnode with rfl | hnode | hnode
      · exact hvoid
      · exact ihleft (Ty.isVoid_of_isScalar hcombines.isScalar.1) node hnode
      · exact ihright (Ty.isVoid_of_isScalar hcombines.isScalar.2.1) node hnode
  | addressName h => simpa [Expr.values] using hvoid
  | @addressDeref note inner pointer h _ ih =>
      have hderef : (Expr.unary inner .deref pointer).WellFormed scopes scope := by
        cases h with
        | addressOf _ _ _ _ hoperand => exact hoperand
        | keeping hop => cases hop
      simpa [Expr.values] using ⟨hvoid, ih (hpointer hderef)⟩
  | deref h _ ih => simpa [Expr.values] using ⟨hvoid, ih (hpointer h)⟩
  | @keeping note op operand h _ hop _ hoperand ih =>
      have hrest := ih hoperand
      cases op with
      | addressOf => cases hop
      | deref => cases hop
      | _ => simpa [Expr.values] using ⟨hvoid, hrest⟩
  | call h _ ih =>
      cases h with
      | call _ _ _ _ haccepts _ =>
          intro node hnode
          rw [Expr.values, List.mem_cons, Expr.mem_allValues] at hnode
          rcases hnode with rfl | ⟨argument, hmem, hnode⟩
          · exact hvoid
          · have hscalar := Expr.isScalar_of_accepted haccepts hmem
            exact ih argument hmem (Ty.isVoid_of_isScalar hscalar) node hnode

theorem Expr.discardedValues_eq {e : Expr} (h : e.isCall = false) : e.discardedValues = e.values := by
  cases e <;> first | rfl | cases h

/-- The values that a statement asks for are those of expressions that have one. -/
theorem Statement.WellFormed.values_not_void {result : Ty} {statement : Statement}
    (h : statement.WellFormed scopes result scope) :
    ∀ e ∈ statement.values, e.type.isVoid = false := by
  induction h with
  | @declaration scope declared hscope hvisible hinitial =>
      rw [Statement.values]
      cases hvalue : declared.initial with
      | none => simp
      | some value =>
          obtain ⟨hwf, haccepts⟩ := hinitial value hvalue
          exact hwf.values_not_void (Ty.isVoid_of_isScalar haccepts.isScalar.2)
  | @expression scope value hvalue hcall =>
      rw [Statement.values]
      cases hisCall : value.isCall with
      | false =>
          rw [Expr.discardedValues_eq hisCall]
          exact hvalue.values_not_void (hcall.resolve_left (by simp [hisCall]))
      | true =>
          cases hvalue with
          | call _ _ _ _ haccepts harguments =>
              intro e he
              obtain ⟨argument, hmem, he⟩ := Expr.mem_allValues.mp he
              have hscalar := Expr.isScalar_of_accepted haccepts hmem
              exact (harguments argument hmem).values_not_void (Ty.isVoid_of_isScalar hscalar) e he
          | _ => cases hisCall
  | @returning scope value location hnone hvalue =>
      rw [Statement.values]
      cases value with
      | none => simp
      | some given =>
          obtain ⟨hwf, haccepts⟩ := hvalue given rfl
          exact hwf.values_not_void (Ty.isVoid_of_isScalar haccepts.isScalar.2)
  | @branch scope condition yes no location hcondition hvalue hyes hno ihyes ihno =>
      have htest := hcondition.values_not_void hvalue
      intro e he
      cases no with
      | none =>
          simp only [Statement.values, List.append_nil, List.mem_append] at he
          exact he.elim (htest e) (ihyes e)
      | some other =>
          simp only [Statement.values, List.mem_append] at he
          exact he.elim (fun he => he.elim (htest e) (ihyes e)) (ihno other rfl e)
  | loop hcondition hvalue _ ih =>
      intro e he
      rw [Statement.values, List.mem_append] at he
      exact he.elim (hcondition.values_not_void hvalue e) (ih e)
  | block _ _ _ ih =>
      intro e he
      rw [Statement.values] at he
      obtain ⟨statement, hmem, he⟩ := Statement.mem_allValues.mp he
      exact ih statement hmem e he

end WellFormed

end AccumulatorC
