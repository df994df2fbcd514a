import Mathlib.Data.Set.Basic
import AccumulatorC.Lowering.Expression
import AccumulatorC.Proofs.Program.Nodes

/-!
# Conversions of stored values

Values are stored by assignments, as arguments, as initial values and as results. What is stored is
converted to the type of the place that it is stored in, and a conversion that may lose something is
noted at a place of the source.
-/

namespace AccumulatorC

/-- A value of one type is stored in something of another. -/
structure Storing where
  target : Ty
  value : Ty
  /-- The place at which the conversion is noted. -/
  location : Location

/-- Whether a value of two bytes is cut to one. -/
def Conversion.narrows : Conversion → Bool
  | .narrowing value target | .pointerInteger value target => value.size = 2 && target.size = 1
  | .pointerMismatch _ _ => false

/-- Whether warnings tell of a value that is cut at a place. -/
def tellOfNarrowing (warnings : List (Located Conversion)) (location : Location) : Bool :=
  warnings.any fun warning => decide (warning.location = location) && warning.value.narrows

/-! ## What is stored -/

/-- What an expression itself stores, without its parts. -/
def Expr.stores : Expr → List Storing
  | .assign note target value => [⟨target.type, value.type, note.location⟩]
  | .call _ function arguments =>
      List.zipWith (fun parameter argument => ⟨parameter, argument.type, argument.location⟩)
        function.parameters arguments
  | _ => []

/-- What an expression and its parts store. -/
def Expr.storings (e : Expr) : List Storing := e.nodes.flatMap Expr.stores

/-- The initial value of a variable is stored in it. -/
def Declaration.stores (declared : Declaration) : List Storing :=
  declared.initial.toList.map fun value => ⟨declared.symbol.type, value.type, value.location⟩

/-- What a statement itself stores in a function with a result. -/
def Statement.stores (result : Ty) : Statement → List Storing
  | .declaration declared => declared.stores
  | .returning value _ _ => value.toList.map fun value => ⟨result, value.type, value.location⟩
  | _ => []

/-- What a statement of a function with a result stores, with its parts and its expressions. -/
def Statement.storings (result : Ty) (statement : Statement) : List Storing :=
  statement.nodes.flatMap Expr.stores ++ statement.parts.flatMap (Statement.stores result)

/-- What an item stores. -/
def Item.storings : Item → List Storing
  | .global declared => (declared.initial.elim [] Expr.storings) ++ declared.stores
  | .function defined => defined.body.flatMap (Statement.storings defined.symbol.result)

/-- What a program stores. -/
def Program.storings (program : Program) : List Storing := program.items.flatMap Item.storings

section Parts

variable {result : Ty} {note : Note} {stored : Storing}

/-- An assignment stores its value, and its operands store what they do. -/
theorem Expr.mem_storings_assign {target value : Expr} :
    stored ∈ (Expr.assign note target value).storings ↔
      stored = ⟨target.type, value.type, note.location⟩ ∨ stored ∈ target.storings ∨
        stored ∈ value.storings := by
  simp [storings, nodes, stores]

theorem Expr.mem_storings_binary {op : BinaryOp} {left right : Expr} :
    stored ∈ (Expr.binary note op left right).storings ↔
      stored ∈ left.storings ∨ stored ∈ right.storings := by
  simp [storings, nodes, stores]

@[simp] theorem Expr.storings_unary {op : UnaryOp} {operand : Expr} :
    (Expr.unary note op operand).storings = operand.storings := by
  simp [storings, nodes, stores]

/-- A call stores its arguments in the parameters. -/
theorem Expr.mem_storings_call {function : Symbol} {arguments : List Expr} :
    stored ∈ (Expr.call note function arguments).storings ↔
      stored ∈ (Expr.call note function arguments).stores ∨
        ∃ argument ∈ arguments, stored ∈ argument.storings := by
  simp only [storings, nodes, List.flatMap_cons, List.mem_append, List.mem_flatMap, mem_allNodes]
  refine or_congr_right ⟨?_, ?_⟩
  · rintro ⟨node, ⟨argument, hmem, hnode⟩, hstored⟩
    exact ⟨argument, hmem, node, hnode, hstored⟩
  · rintro ⟨argument, hmem, node, hnode, hstored⟩
    exact ⟨node, ⟨argument, hmem, hnode⟩, hstored⟩

@[simp] theorem Statement.storings_declaration (declared : Declaration) :
    (Statement.declaration declared).storings result =
      declared.initial.elim [] Expr.storings ++ declared.stores := by
  cases h : declared.initial <;>
    simp [storings, nodes, parts, stores, h, Expr.storings]

@[simp] theorem Statement.storings_expression (value : Expr) :
    (Statement.expression value).storings result = value.storings := by
  simp [storings, nodes, parts, stores, Expr.storings]

/-- A branch stores what its condition and its parts do. -/
theorem Statement.mem_storings_branch {condition : Expr} {yes : Statement} {no : Option Statement}
    {location : Location} :
    stored ∈ (Statement.branch condition yes no location).storings result ↔
      stored ∈ condition.storings ∨ stored ∈ yes.storings result ∨
        ∃ other, no = some other ∧ stored ∈ other.storings result := by
  have hown : (Statement.branch condition yes no location).stores result = [] := rfl
  cases no with
  | none => simp [storings, nodes, parts, hown, Expr.storings]
  | some other =>
      simp only [storings, nodes, parts, hown, Expr.storings, List.mem_append, List.flatMap_append,
        List.flatMap_cons, List.nil_append, Option.some.injEq, exists_eq_left']
      tauto

theorem Statement.mem_storings_loop {condition : Expr} {body : Statement} {location : Location} :
    stored ∈ (Statement.loop condition body location).storings result ↔
      stored ∈ condition.storings ∨ stored ∈ body.storings result := by
  have hown : (Statement.loop condition body location).stores result = [] := rfl
  simp [storings, nodes, parts, hown, Expr.storings]

theorem Statement.mem_storings_block {scope : ScopeId} {body : List Statement}
    {location : Location} :
    stored ∈ (Statement.block scope body location).storings result ↔
      ∃ statement ∈ body, stored ∈ statement.storings result := by
  have hown : (Statement.block scope body location).stores result = [] := rfl
  simp only [storings, nodes, parts, hown, List.mem_append, List.mem_flatMap, List.flatMap_cons,
    List.nil_append, Statement.mem_allNodes, Statement.mem_allParts]
  constructor
  · rintro (⟨node, ⟨statement, hmem, hnode⟩, hstored⟩ | ⟨part, ⟨statement, hmem, hpart⟩, hstored⟩)
    · exact ⟨statement, hmem, .inl ⟨node, hnode, hstored⟩⟩
    · exact ⟨statement, hmem, .inr ⟨part, hpart, hstored⟩⟩
  · rintro ⟨statement, hmem, ⟨node, hnode, hstored⟩ | ⟨part, hpart, hstored⟩⟩
    · exact .inl ⟨node, ⟨statement, hmem, hnode⟩, hstored⟩
    · exact .inr ⟨part, ⟨statement, hmem, hpart⟩, hstored⟩

/-- A returned value is stored in the result. -/
theorem Statement.storings_returning (value : Option Expr) (scope : ScopeId) (location : Location) :
    (Statement.returning value scope location).storings result =
      value.elim [] fun value => value.storings ++ [⟨result, value.type, value.location⟩] := by
  cases value <;> simp [storings, nodes, parts, stores, Expr.storings]

end Parts

/-! ## Conversions that are noted -/

/-- The warning that storing a value gives rise to, if there is one. -/
def Storing.warnings (stored : Storing) : List (Located Conversion) :=
  match stored.target.assign stored.value with
  | .ok warning => Checked.noted warning stored.location
  | .error _ => []

/-- The warnings that an expression itself gives rise to, without its parts: its operands are brought
to one type, or values are stored. -/
def Expr.warnings : Expr → List (Located Conversion)
  | .binary note _ left right =>
      match left.type.common right.type with
      | .ok (_, warning) => Checked.noted warning note.location
      | .error _ => []
  | e => e.stores.flatMap Storing.warnings

/-- The warnings that an expression and its parts give rise to. -/
def Expr.conversions (e : Expr) : Set (Located Conversion) := {w | ∃ node ∈ e.nodes, w ∈ node.warnings}

/-- The warnings that a declaration gives rise to. -/
def Declaration.conversions (declared : Declaration) : Set (Located Conversion) :=
  declared.initial.elim ∅ Expr.conversions ∪ {w | ∃ stored ∈ declared.stores, w ∈ stored.warnings}

/-- The warnings that a statement of a function with a result gives rise to. -/
def Statement.conversions (result : Ty) (statement : Statement) : Set (Located Conversion) :=
  {w | ∃ node ∈ statement.nodes, w ∈ node.warnings} ∪
    {w | ∃ part ∈ statement.parts, ∃ stored ∈ part.stores result, w ∈ stored.warnings}

/-- The warnings that an item gives rise to. -/
def Item.conversions : Item → Set (Located Conversion)
  | .global declared => declared.conversions
  | .function defined =>
      {w | ∃ statement ∈ defined.body, w ∈ statement.conversions defined.symbol.result}

/-- The warnings that a program gives rise to. -/
def Program.conversions (program : Program) : Set (Located Conversion) :=
  {w | ∃ item ∈ program.items, w ∈ item.conversions}

section Conversions

variable {note : Note} {result : Ty}

@[simp] theorem Expr.conversions_number {value : UInt16} :
    (Expr.number note value).conversions = ∅ := by
  simp [conversions, nodes, warnings, stores]

@[simp] theorem Expr.conversions_string {bytes : List UInt8} :
    (Expr.string note bytes).conversions = ∅ := by
  simp [conversions, nodes, warnings, stores]

@[simp] theorem Expr.conversions_name {symbol : Symbol} :
    (Expr.name note symbol).conversions = ∅ := by
  simp [conversions, nodes, warnings, stores]

theorem Expr.conversions_assign {target value : Expr} :
    (Expr.assign note target value).conversions =
      {w | w ∈ Storing.warnings ⟨target.type, value.type, note.location⟩} ∪
        (target.conversions ∪ value.conversions) := by
  ext w
  simp [conversions, nodes, warnings, stores, or_and_right, exists_or]

theorem Expr.conversions_binary {op : BinaryOp} {left right : Expr} :
    (Expr.binary note op left right).conversions =
      {w | w ∈ (Expr.binary note op left right).warnings} ∪
        (left.conversions ∪ right.conversions) := by
  ext w
  simp [conversions, nodes, or_and_right, exists_or]

@[simp] theorem Expr.conversions_unary {op : UnaryOp} {operand : Expr} :
    (Expr.unary note op operand).conversions = operand.conversions := by
  ext w
  simp [conversions, nodes, warnings, stores]

theorem Expr.conversions_call {function : Symbol} {arguments : List Expr} :
    (Expr.call note function arguments).conversions =
      {w | w ∈ (Expr.call note function arguments).warnings} ∪
        {w | ∃ argument ∈ arguments, w ∈ argument.conversions} := by
  ext w
  simp only [conversions, nodes, List.mem_cons, mem_allNodes, or_and_right, exists_or,
    exists_eq_left, Set.mem_union, Set.mem_ofPred_eq]
  refine or_congr_right ⟨?_, ?_⟩
  · rintro ⟨node, ⟨argument, hmem, hnode⟩, hw⟩
    exact ⟨argument, hmem, node, hnode, hw⟩
  · rintro ⟨argument, hmem, node, hnode, hw⟩
    exact ⟨node, ⟨argument, hmem, hnode⟩, hw⟩

theorem Declaration.conversions_eq {symbol : Symbol} {initial : Option Expr} :
    (Declaration.mk symbol initial).conversions = initial.elim ∅ fun value =>
      value.conversions ∪ {w | w ∈ Storing.warnings ⟨symbol.type, value.type, value.location⟩} := by
  cases initial <;> simp [conversions, stores]

theorem Statement.conversions_declaration (declared : Declaration) :
    (Statement.declaration declared).conversions result = declared.conversions := by
  obtain ⟨symbol, initial⟩ := declared
  cases initial <;>
    simp [conversions, Declaration.conversions, nodes, parts, stores, Expr.conversions]

theorem Statement.conversions_expression (value : Expr) :
    (Statement.expression value).conversions result = value.conversions := by
  simp [conversions, nodes, parts, stores, Expr.conversions]

theorem Statement.conversions_returning (value : Option Expr) (scope : ScopeId)
    (location : Location) :
    (Statement.returning value scope location).conversions result = value.elim ∅ fun value =>
      value.conversions ∪ {w | w ∈ Storing.warnings ⟨result, value.type, value.location⟩} := by
  cases value <;> simp [conversions, nodes, parts, stores, Expr.conversions]

theorem Statement.conversions_branch {condition : Expr} {yes : Statement} {no : Option Statement}
    {location : Location} :
    (Statement.branch condition yes no location).conversions result =
      condition.conversions ∪ (yes.conversions result ∪ no.elim ∅ (Statement.conversions result)) := by
  have hown : (Statement.branch condition yes no location).stores result = [] := rfl
  ext w
  cases no with
  | none => simp [conversions, nodes, parts, hown, Expr.conversions, or_and_right, exists_or, or_assoc]
  | some other =>
      simp only [conversions, nodes, parts, hown, Expr.conversions, List.mem_append, List.mem_cons,
        or_and_right, exists_or, exists_eq_left, Set.mem_union, Set.mem_ofPred_eq, Option.elim_some,
        List.not_mem_nil, false_and, exists_false, false_or]
      grind

theorem Statement.conversions_loop {condition : Expr} {body : Statement} {location : Location} :
    (Statement.loop condition body location).conversions result =
      condition.conversions ∪ body.conversions result := by
  have hown : (Statement.loop condition body location).stores result = [] := rfl
  ext w
  simp [conversions, nodes, parts, hown, Expr.conversions, or_and_right, exists_or, or_assoc]

theorem Statement.conversions_block {scope : ScopeId} {body : List Statement}
    {location : Location} :
    (Statement.block scope body location).conversions result =
      {w | ∃ statement ∈ body, w ∈ statement.conversions result} := by
  have hown : (Statement.block scope body location).stores result = [] := rfl
  ext w
  simp only [conversions, nodes, parts, hown, Statement.mem_allNodes, Statement.mem_allParts,
    List.mem_cons, or_and_right, exists_or, exists_eq_left, Set.mem_union, Set.mem_ofPred_eq,
    List.not_mem_nil, false_and, exists_false, false_or]
  constructor
  · rintro (⟨node, ⟨statement, hmem, hnode⟩, hw⟩ | ⟨part, ⟨statement, hmem, hpart⟩, hw⟩)
    · exact ⟨statement, hmem, .inl ⟨node, hnode, hw⟩⟩
    · exact ⟨statement, hmem, .inr ⟨part, hpart, hw⟩⟩
  · rintro ⟨statement, hmem, ⟨node, hnode, hw⟩ | ⟨part, hpart, hw⟩⟩
    · exact .inl ⟨node, ⟨statement, hmem, hnode⟩, hw⟩
    · exact .inr ⟨part, ⟨statement, hmem, hpart⟩, hw⟩

/-- The warnings of what an expression stores are among its own. -/
theorem Expr.mem_warnings_of_storing {e : Expr} {stored : Storing} (h : stored ∈ e.stores)
    {w : Located Conversion} (hw : w ∈ stored.warnings) : w ∈ e.warnings := by
  have hflat : w ∈ e.stores.flatMap Storing.warnings := List.mem_flatMap.mpr ⟨stored, h, hw⟩
  cases e with
  | binary => cases h
  | _ => exact hflat

theorem Expr.mem_conversions_of_storing {e : Expr} {stored : Storing} (h : stored ∈ e.storings)
    {w : Located Conversion} (hw : w ∈ stored.warnings) : w ∈ e.conversions := by
  obtain ⟨node, hnode, hstored⟩ := List.mem_flatMap.mp h
  exact ⟨node, hnode, mem_warnings_of_storing hstored hw⟩

/-- The warnings of whatever a program stores are among those that it gives rise to. -/
theorem Program.mem_conversions_of_storing {program : Program} {stored : Storing}
    (h : stored ∈ program.storings) {w : Located Conversion} (hw : w ∈ stored.warnings) :
    w ∈ program.conversions := by
  obtain ⟨item, hitem, hstored⟩ := List.mem_flatMap.mp h
  refine ⟨item, hitem, ?_⟩
  cases item with
  | global declared =>
      obtain ⟨symbol, initial⟩ := declared
      rcases List.mem_append.mp hstored with hstored | hstored
      · cases initial with
        | none => cases hstored
        | some value => exact .inl (Expr.mem_conversions_of_storing hstored hw)
      · exact .inr ⟨stored, hstored, hw⟩
  | function defined =>
      obtain ⟨statement, hstatement, hstored⟩ := List.mem_flatMap.mp hstored
      refine ⟨statement, hstatement, ?_⟩
      rcases List.mem_append.mp hstored with hstored | hstored
      · obtain ⟨node, hnode, hstored⟩ := List.mem_flatMap.mp hstored
        exact .inl ⟨node, hnode, Expr.mem_warnings_of_storing hstored hw⟩
      · obtain ⟨part, hpart, hstored⟩ := List.mem_flatMap.mp hstored
        exact .inr ⟨part, hpart, stored, hstored, hw⟩

end Conversions

/-! ## What can be stored -/

section Accepted

variable {scopes : Scopes} {scope : ScopeId}

/-- What a well-formed expression stores can be stored. -/
theorem Expr.WellFormed.accepts {e : Expr} (h : e.WellFormed scopes scope) :
    ∀ stored ∈ e.stores, stored.target.Accepts stored.value := by
  cases h with
  | assign _ _ _ _ haccepts _ _ => simpa [stores] using haccepts
  | @call note function arguments parameters hscope hconstant htype hvisible haccepts harguments =>
      simp only [stores, Symbol.parameters, htype]
      clear htype harguments
      induction haccepts with
      | nil => simp
      | cons hfirst hrest ih => simpa using ⟨hfirst, ih⟩
  | _ => simp [stores]

/-- What a well-formed statement stores can be stored. -/
theorem Statement.WellFormed.accepts {result : Ty} {statement : Statement}
    (h : statement.WellFormed scopes result scope) :
    ∀ stored ∈ statement.stores result, stored.target.Accepts stored.value := by
  intro stored hmem
  cases h with
  | declaration _ _ hinitial =>
      obtain ⟨value, hvalue, rfl⟩ := List.mem_map.mp hmem
      exact (hinitial value (Option.mem_toList.mp hvalue)).2
  | returning _ hvalue =>
      obtain ⟨given, hgiven, rfl⟩ := List.mem_map.mp hmem
      exact (hvalue given (Option.mem_toList.mp hgiven)).2
  | _ => cases hmem

/-- Everything that a well-formed program stores can be stored. -/
theorem Program.WellFormed.accepts {program : Program} (h : program.WellFormed) :
    ∀ stored ∈ program.storings, stored.target.Accepts stored.value := by
  intro stored hmem
  have hnodes : ∀ node ∈ program.nodes, stored ∈ node.stores →
      stored.target.Accepts stored.value := fun node hnode hstored =>
    (h.node hnode).accepts stored hstored
  obtain ⟨item, hitem, hstored⟩ := List.mem_flatMap.mp hmem
  cases item with
  | global declared =>
      obtain ⟨symbol, initial⟩ := declared
      cases initial with
      | none => cases hstored
      | some value =>
          rcases List.mem_append.mp hstored with hstored | hstored
          · obtain ⟨node, hnode, hstored⟩ := List.mem_flatMap.mp hstored
            exact hnodes node (List.mem_flatMap.mpr ⟨_, hitem, hnode⟩) hstored
          · obtain rfl := List.mem_singleton.mp hstored
            exact (h.globals _ value hitem rfl).2.1
  | function defined =>
      obtain ⟨statement, hstatement, hstored⟩ := List.mem_flatMap.mp hstored
      rcases List.mem_append.mp hstored with hstored | hstored
      · obtain ⟨node, hnode, hstored⟩ := List.mem_flatMap.mp hstored
        exact hnodes node (List.mem_flatMap.mpr
          ⟨_, hitem, Statement.mem_allNodes.mpr ⟨statement, hstatement, hnode⟩⟩) hstored
      · obtain ⟨part, hpart, hstored⟩ := List.mem_flatMap.mp hstored
        obtain ⟨result, types, table, htype, -, -, hbody⟩ := (h.functions defined hitem).signature
        have hresult : defined.symbol.result = result := by rw [Symbol.result, htype]
        obtain ⟨inner, hwf, -⟩ := Function.WellFormed.part h.scopes hbody
          (Statement.mem_allParts.mpr ⟨statement, hstatement, hpart⟩)
        exact hwf.accepts stored (hresult ▸ hstored)

end Accepted

/-! ## What a conversion is about -/

/-- A conversion happens at an expression of a program: its operands are brought to one type, a value
is assigned by it, or it is itself stored. -/
inductive Program.Converts (program : Program) : Expr → Conversion → Prop
  | combining {note : Note} {op : BinaryOp} {left right : Expr} {type : Ty}
      {conversion : Conversion}
      (hcommon : left.type.common right.type = .ok (type, some conversion)) :
      Converts program (.binary note op left right) conversion
  | assigning {note : Note} {target value : Expr} {conversion : Conversion}
      (hassign : target.type.assign value.type = .ok (some conversion)) :
      Converts program (.assign note target value) conversion
  | storing {value : Expr} {target : Ty} {conversion : Conversion}
      (hstored : ⟨target, value.type, value.location⟩ ∈ program.storings)
      (hassign : target.assign value.type = .ok (some conversion)) :
      Converts program value conversion

/-- A warning of a storing tells the conversion that its rule found. -/
theorem Storing.of_mem_warnings {stored : Storing} {w : Located Conversion}
    (h : w ∈ stored.warnings) :
    stored.target.assign stored.value = .ok (some w.value) ∧ w.location = stored.location := by
  unfold warnings at h
  split at h
  next warning hassign =>
    obtain ⟨conversion, hsome, rfl⟩ := List.mem_map.mp h
    exact ⟨by rw [hassign, Option.mem_toList.mp hsome], rfl⟩
  next => cases h

section Program

variable {program : Program} {w : Located Conversion}

/-- What is stored at a node is stored in the program. -/
theorem Program.mem_storings_of_node {e : Expr} (he : e ∈ program.nodes) {stored : Storing}
    (h : stored ∈ e.stores) : stored ∈ program.storings := by
  obtain ⟨item, hitem, he⟩ := List.mem_flatMap.mp he
  refine List.mem_flatMap.mpr ⟨item, hitem, ?_⟩
  cases item with
  | global declared =>
      obtain ⟨symbol, initial⟩ := declared
      cases initial with
      | none => cases he
      | some value => exact List.mem_append_left _ (List.mem_flatMap.mpr ⟨e, he, h⟩)
  | function defined =>
      obtain ⟨statement, hstatement, he⟩ := Statement.mem_allNodes.mp he
      exact List.mem_flatMap.mpr ⟨statement, hstatement,
        List.mem_append_left _ (List.mem_flatMap.mpr ⟨e, he, h⟩)⟩

/-- A warning that an expression of a program itself gives rise to is about this expression or about
an argument of it, and stands at its place. -/
theorem Program.exists_converts_of_node {node : Expr} (hnode : node ∈ program.nodes)
    (h : w ∈ node.warnings) :
    ∃ e ∈ program.nodes, w.location = e.location ∧ program.Converts e w.value := by
  cases node with
  | number | string | name | unary => cases h
  | binary note op left right =>
      cases hcommon : left.type.common right.type with
      | error cause => simp [Expr.warnings, hcommon] at h
      | ok found =>
          simp only [Expr.warnings, hcommon] at h
          obtain ⟨conversion, hsome, rfl⟩ := List.mem_map.mp h
          refine ⟨_, hnode, rfl, @Converts.combining program note op left right found.1 _ ?_⟩
          rw [hcommon, ← Option.mem_toList.mp hsome]
  | assign note target value =>
      obtain ⟨stored, hstored, hw⟩ := List.mem_flatMap.mp h
      obtain rfl := List.mem_singleton.mp hstored
      obtain ⟨hassign, hlocation⟩ := Storing.of_mem_warnings hw
      exact ⟨_, hnode, hlocation, .assigning hassign⟩
  | call note function arguments =>
      obtain ⟨stored, hstored, hw⟩ := List.mem_flatMap.mp h
      obtain ⟨hassign, hlocation⟩ := Storing.of_mem_warnings hw
      have hprogram := mem_storings_of_node hnode hstored
      obtain ⟨i, hi⟩ := List.mem_iff_getElem?.mp hstored
      obtain ⟨parameter, argument, -, hargument, rfl⟩ := List.getElem?_zipWith_eq_some.mp hi
      have hpart : argument ∈ (Expr.call note function arguments).nodes :=
        List.mem_cons_of_mem _
          (Expr.mem_allNodes.mpr ⟨argument, List.mem_of_getElem? hargument, argument.mem_nodes_self⟩)
      exact ⟨argument, program.nodes_partsIn _ hnode hpart, hlocation, .storing hprogram hassign⟩

/-- Every warning that a program gives rise to is about an expression of it and stands at its
place. -/
theorem Program.exists_converts (h : w ∈ program.conversions) :
    ∃ e ∈ program.nodes, w.location = e.location ∧ program.Converts e w.value := by
  obtain ⟨item, hitem, h⟩ := h
  have hstored : ∀ {value : Expr} {target : Ty}, value ∈ program.nodes →
      ⟨target, value.type, value.location⟩ ∈ program.storings →
      w ∈ Storing.warnings ⟨target, value.type, value.location⟩ →
      ∃ e ∈ program.nodes, w.location = e.location ∧ program.Converts e w.value := by
    intro value target hnode hmem hw
    obtain ⟨hassign, hlocation⟩ := Storing.of_mem_warnings hw
    exact ⟨value, hnode, hlocation, .storing hmem hassign⟩
  cases item with
  | global declared =>
      obtain ⟨symbol, initial⟩ := declared
      cases initial with
      | none => simp [Item.conversions, Declaration.conversions_eq] at h
      | some value =>
          rw [Item.conversions, Declaration.conversions_eq] at h
          rcases h with ⟨node, hnode, hw⟩ | hw
          · exact exists_converts_of_node (List.mem_flatMap.mpr ⟨_, hitem, hnode⟩) hw
          · refine hstored (List.mem_flatMap.mpr ⟨_, hitem, value.mem_nodes_self⟩) ?_ hw
            exact List.mem_flatMap.mpr ⟨_, hitem,
              List.mem_append_right _ (List.mem_singleton.mpr rfl)⟩
  | function defined =>
      obtain ⟨statement, hstatement, h⟩ := h
      have hnodes : ∀ e ∈ statement.nodes, e ∈ program.nodes := fun e he =>
        List.mem_flatMap.mpr ⟨_, hitem, Statement.mem_allNodes.mpr ⟨statement, hstatement, he⟩⟩
      rcases h with ⟨node, hnode, hw⟩ | ⟨part, hpart, stored, hmem, hw⟩
      · exact exists_converts_of_node (hnodes node hnode) hw
      · have hstorings : stored ∈ program.storings :=
          List.mem_flatMap.mpr ⟨_, hitem, List.mem_flatMap.mpr ⟨statement, hstatement,
            List.mem_append_right _ (List.mem_flatMap.mpr ⟨part, hpart, hmem⟩)⟩⟩
        have hpartNodes := Statement.nodes_subset_of_part hpart
        cases part with
        | declaration declared =>
            obtain ⟨value, hvalue, rfl⟩ := List.mem_map.mp hmem
            refine hstored (hnodes value (hpartNodes ?_)) hstorings hw
            rw [Statement.nodes, Option.mem_toList.mp hvalue]
            exact value.mem_nodes_self
        | returning value scope location =>
            obtain ⟨given, hgiven, rfl⟩ := List.mem_map.mp hmem
            refine hstored (hnodes given (hpartNodes ?_)) hstorings hw
            rw [Statement.nodes, Option.mem_toList.mp hgiven]
            exact given.mem_nodes_self
        | _ => cases hmem

end Program

/-! ## Values that are cut -/

/-- A value is cut only where that is allowed. -/
def Storing.CutsWhere (allowed : Location → Bool) (stored : Storing) : Prop :=
  stored.value.size = 2 → stored.target.size = 1 → allowed stored.location = true

/-- A value that is cut when it is stored has a conversion that says so. -/
theorem Ty.assign_narrows {target value : Ty} {warning : Option Conversion}
    (h : target.assign value = .ok warning) (hvalue : value.size = 2) (htarget : target.size = 1) :
    ∃ conversion, warning = some conversion ∧ conversion.narrows = true := by
  cases target <;> cases value <;> cases h <;> try cases hvalue <;> cases htarget
  · exact ⟨_, rfl, rfl⟩
  · exact ⟨_, rfl, rfl⟩

/-- Warnings among which is that of a value that can be stored tell if it is cut. -/
theorem Storing.cutsWhere_of_warnings {warnings : List (Located Conversion)} {stored : Storing}
    (haccepts : stored.target.Accepts stored.value) (h : stored.warnings ⊆ warnings) :
    stored.CutsWhere (tellOfNarrowing warnings) := by
  obtain ⟨warning, hassign⟩ := haccepts
  intro hvalue htarget
  obtain ⟨conversion, rfl, hnarrows⟩ := Ty.assign_narrows hassign hvalue htarget
  have hmem : ⟨conversion, stored.location⟩ ∈ warnings :=
    h (by simp [Storing.warnings, hassign, Checked.noted])
  exact List.any_eq_true.mpr ⟨_, hmem, by simp [hnarrows]⟩

end AccumulatorC
