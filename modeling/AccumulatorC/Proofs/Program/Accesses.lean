import AccumulatorC.Proofs.Program.Frames

/-!
# Accesses to locals

The bytes of locals that a program addresses, in the order in which its code does: operands
from left to right, an assigned value before its place. An address that is only taken counts
as an access to the first byte.
-/

namespace AccumulatorC

/-- A byte of a symbol, addressed in a scope. -/
structure Access where
  symbol : Symbol
  byte : Nat
  scope : ScopeId

/-- The accesses to the first bytes of a symbol. Symbols at labels have none. -/
def Symbol.accesses (symbol : Symbol) (scope : ScopeId) (bytes : Nat) : List Access :=
  match symbol.storage with
  | .framed _ => (List.range bytes).map fun byte => ⟨symbol, byte, scope⟩
  | .labelled | .external => []

mutual

/-- The accesses of an expression. -/
def Expr.accesses : Expr → List Access
  | .number _ _ | .string _ _ => []
  | .name note symbol => symbol.accesses note.scope note.type.size
  | .assign _ target value =>
      value.accesses ++
        match target with
        | .name note symbol => symbol.accesses note.scope note.type.size
        | .unary _ .deref pointer => pointer.accesses
        | _ => []
  | .binary _ _ left right => left.accesses ++ right.accesses
  | .unary _ .addressOf operand =>
      match operand with
      | .name note symbol => symbol.accesses note.scope 1
      | .unary _ .deref pointer => pointer.accesses
      | _ => []
  | .unary _ _ operand => operand.accesses
  | .call _ _ arguments => Expr.allAccesses arguments

/-- The accesses of expressions one after the other. -/
def Expr.allAccesses : List Expr → List Access
  | [] => []
  | e :: rest => e.accesses ++ Expr.allAccesses rest

end

mutual

/-- The accesses of a statement. -/
def Statement.accesses : Statement → List Access
  | .declaration declared =>
      match declared.initial with
      | none => []
      | some value =>
          value.accesses ++ declared.symbol.accesses value.note.scope declared.symbol.type.size
  | .expression value => value.accesses
  | .returning value _ _ => value.elim [] Expr.accesses
  | .branch condition yes no _ =>
      condition.accesses ++ yes.accesses ++
        match no with
        | some no => no.accesses
        | none => []
  | .loop condition body _ => condition.accesses ++ body.accesses
  | .block _ body _ => Statement.allAccesses body

/-- The accesses of statements one after the other. -/
def Statement.allAccesses : List Statement → List Access
  | [] => []
  | statement :: rest => statement.accesses ++ Statement.allAccesses rest

end

/-- The accesses of a function. -/
def Function.accesses (function : Function) : List Access :=
  Statement.allAccesses function.body

/-- Accesses that are in order: a byte of a local that is visible in the scope of the access,
which lies in a scope further out. -/
structure Access.Sound (scopes : Scopes) (outer : ScopeId) (access : Access) : Prop where
  visible : scopes.Visible access.scope access.symbol
  framed : ∃ offset, access.symbol.storage = .framed offset
  byte_lt : access.byte < access.symbol.type.size
  inside : outer ∈ scopes.chain access.scope

/-- A symbol that is visible in a scope is accessed soundly from there. -/
theorem Symbol.accesses_sound {scopes : Scopes} {scope outer : ScopeId} {symbol : Symbol}
    (hvisible : scopes.Visible scope symbol) (houter : outer ∈ scopes.chain scope) {bytes : Nat}
    (hbytes : bytes ≤ symbol.type.size ∨ ∀ offset, symbol.storage ≠ .framed offset)
    {access : Access} (h : access ∈ symbol.accesses scope bytes) : access.Sound scopes outer := by
  unfold Symbol.accesses at h
  split at h
  next offset hstorage =>
    obtain ⟨byte, hbyte, rfl⟩ := List.mem_map.mp h
    have hle := hbytes.resolve_right fun h => h offset hstorage
    exact ⟨hvisible, ⟨offset, hstorage⟩, Nat.lt_of_lt_of_le (List.mem_range.mp hbyte) hle, houter⟩
  · cases h
  · cases h

theorem Expr.mem_allAccesses {arguments : List Expr} {access : Access}
    (h : access ∈ Expr.allAccesses arguments) : ∃ e ∈ arguments, access ∈ e.accesses := by
  induction arguments with
  | nil =>
      rw [Expr.allAccesses] at h
      cases h
  | cons e rest ih =>
      rw [Expr.allAccesses] at h
      rcases List.mem_append.mp h with h | h
      · exact ⟨e, List.mem_cons_self, h⟩
      · obtain ⟨found, hmem, hfound⟩ := ih h
        exact ⟨found, List.mem_cons_of_mem _ hmem, hfound⟩

theorem Statement.mem_allAccesses {body : List Statement} {access : Access}
    (h : access ∈ Statement.allAccesses body) :
    ∃ statement ∈ body, access ∈ statement.accesses := by
  induction body with
  | nil =>
      rw [Statement.allAccesses] at h
      cases h
  | cons statement rest ih =>
      rw [Statement.allAccesses] at h
      rcases List.mem_append.mp h with h | h
      · exact ⟨statement, List.mem_cons_self, h⟩
      · obtain ⟨found, hmem, hfound⟩ := ih h
        exact ⟨found, List.mem_cons_of_mem _ hmem, hfound⟩

section Sound

variable {scopes : Scopes} {scope outer : ScopeId}

/-- What a well-formed expression accesses is in order. -/
theorem Expr.WellFormed.accesses_sound (hwf : scopes.WellFormed) {e : Expr}
    (h : e.WellFormed scopes scope) (houter : outer ∈ scopes.chain scope) {access : Access}
    (hmem : access ∈ e.accesses) : access.Sound scopes outer := by
  induction h using Expr.WellFormed.alongLowering with
  | number => simp [Expr.accesses] at hmem
  | string => simp [Expr.accesses] at hmem
  | name h =>
      obtain ⟨hscope, htype, hvisible⟩ := h.of_name
      rw [Expr.accesses, hscope, htype] at hmem
      exact Symbol.accesses_sound hvisible houter (Or.inl (Nat.le_refl _)) hmem
  | @assignName note inner symbol value h hvalue ih =>
      obtain ⟨hscope, htype, hvisible⟩ : inner.scope = scope ∧ inner.type = symbol.type ∧
          scopes.Visible scope symbol := by
        cases h with
        | assign _ _ _ _ _ htarget _ => exact htarget.of_name
      rw [Expr.accesses, hscope, htype] at hmem
      rcases List.mem_append.mp hmem with hmem | hmem
      · exact ih hmem
      · exact Symbol.accesses_sound hvisible houter (Or.inl (Nat.le_refl _)) hmem
  | assignDeref h hvalue hpointer ihvalue ihpointer =>
      rw [Expr.accesses] at hmem
      rcases List.mem_append.mp hmem with hmem | hmem
      · exact ihvalue hmem
      · exact ihpointer hmem
  | binary h hleft hright ihleft ihright =>
      rw [Expr.accesses] at hmem
      rcases List.mem_append.mp hmem with hmem | hmem
      · exact ihleft hmem
      · exact ihright hmem
  | @addressName note inner symbol h =>
      obtain ⟨hscope, -, hvisible⟩ : inner.scope = scope ∧ inner.type = symbol.type ∧
          scopes.Visible scope symbol := by
        cases h with
        | addressOf _ _ _ _ hoperand => exact hoperand.of_name
        | keeping hop => cases hop
      rw [Expr.accesses, hscope] at hmem
      refine Symbol.accesses_sound hvisible houter ?_ hmem
      by_cases hframed : ∃ offset, symbol.storage = .framed offset
      · obtain ⟨offset, hstorage⟩ := hframed
        obtain ⟨table, -, -, hplace⟩ := hvisible.places hwf
        rw [Scope.Places, hstorage] at hplace
        have hsize := Ty.size_of_isScalar hplace.2.1
        left
        omega
      · exact Or.inr fun offset hstorage => hframed ⟨offset, hstorage⟩
  | addressDeref h hpointer ih =>
      rw [Expr.accesses] at hmem
      exact ih hmem
  | deref h hoperand ih =>
      rw [Expr.accesses] at hmem
      · exact ih hmem
      · simp
  | @keeping note op operand h hoperand hop htype hvoid ih =>
      rw [Expr.accesses] at hmem
      · exact ih hmem
      · rintro rfl
        cases hop
  | call h harguments ih =>
      rw [Expr.accesses] at hmem
      obtain ⟨argument, hargument, hmem⟩ := Expr.mem_allAccesses hmem
      exact ih argument hargument hmem

/-- What a well-formed statement accesses is in order. -/
theorem Statement.WellFormed.accesses_sound (hwf : scopes.WellFormed) {result : Ty}
    {statement : Statement} (h : statement.WellFormed scopes result scope)
    (houter : outer ∈ scopes.chain scope) {access : Access} (hmem : access ∈ statement.accesses) :
    access.Sound scopes outer := by
  induction h with
  | @declaration scope declared hscope hvisible hinitial =>
      rw [Statement.accesses] at hmem
      split at hmem
      · cases hmem
      next value hvalue =>
        obtain ⟨hvalue, -⟩ := hinitial value hvalue
        have hnote : value.note.scope = scope := by cases hvalue <;> assumption
        rw [hnote] at hmem
        rcases List.mem_append.mp hmem with hmem | hmem
        · exact hvalue.accesses_sound hwf houter hmem
        · exact Symbol.accesses_sound hvisible houter (Or.inl (Nat.le_refl _)) hmem
  | expression hvalue _ =>
      rw [Statement.accesses] at hmem
      exact hvalue.accesses_sound hwf houter hmem
  | @returning scope value location hnone hvalue =>
      rw [Statement.accesses] at hmem
      cases value with
      | none => cases hmem
      | some given => exact (hvalue given rfl).1.accesses_sound hwf houter hmem
  | @branch scope condition yes no location hcondition _ hyes hno ihyes ihno =>
      cases no with
      | none =>
          simp only [Statement.accesses, List.append_nil, List.mem_append] at hmem
          rcases hmem with hmem | hmem
          · exact hcondition.accesses_sound hwf houter hmem
          · exact ihyes houter hmem
      | some other =>
          simp only [Statement.accesses, List.mem_append] at hmem
          rcases hmem with (hmem | hmem) | hmem
          · exact hcondition.accesses_sound hwf houter hmem
          · exact ihyes houter hmem
          · exact ihno other rfl houter hmem
  | loop hcondition _ hbody ih =>
      rw [Statement.accesses] at hmem
      rcases List.mem_append.mp hmem with hmem | hmem
      · exact hcondition.accesses_sound hwf houter hmem
      · exact ih houter hmem
  | block hinner hparent hbody ih =>
      rw [Statement.accesses] at hmem
      obtain ⟨statement, hstatement, hmem⟩ := Statement.mem_allAccesses hmem
      apply ih statement hstatement _ hmem
      rw [Scopes.chain_of_parent hinner hparent (hwf.lt_of_parent hinner hparent)]
      exact List.mem_cons_of_mem _ houter

/-- What a well-formed function accesses is in order. -/
theorem Function.WellFormed.accesses_sound (hwf : scopes.WellFormed) {function : Function}
    (h : function.WellFormed scopes) {access : Access} (hmem : access ∈ function.accesses) :
    access.Sound scopes function.parameters := by
  obtain ⟨result, types, table, -, -, -, hbody⟩ := h.signature
  obtain ⟨inner, hinner, hparent⟩ := h.body
  obtain ⟨statement, hstatement, hmem⟩ := Statement.mem_allAccesses hmem
  apply (hbody statement hstatement).accesses_sound hwf _ hmem
  rw [Scopes.chain_of_parent hinner hparent (hwf.lt_of_parent hinner hparent)]
  exact List.mem_cons_of_mem _ (Scopes.mem_chain_self _ _)

end Sound

end AccumulatorC
