import AccumulatorC.Program.Parser.Expression

/-!
# Terms

A term is an expression as it is written: its names are not resolved, and steps stand before or after
their operand. The grammar says which tokens spell a term. How loosely the outermost operator of a
term binds is its level, and what stands at a place that wants something tighter stands in
parentheses there.
-/

namespace AccumulatorC

/-! ## Operators -/

/-- The operators that step a place to the neighbouring value. -/
inductive Step
  | increment
  | decrement
  deriving DecidableEq, Repr

/-- How a step is written. -/
def Step.mark : Step → Mark
  | .increment => .increment
  | .decrement => .decrement

/-- The operator that gives the neighbouring value. -/
def Step.op : Step → UnaryOp
  | .increment => .increment
  | .decrement => .decrement

/-- The operator that gives the value from before. -/
def Step.back : Step → UnaryOp
  | .increment => .decrement
  | .decrement => .increment

/-- How an operator before an operand is written. -/
def UnaryOp.mark : UnaryOp → Mark
  | .plus => .plus
  | .negate => .minus
  | .addressOf => .ampersand
  | .deref => .star
  | .increment => .increment
  | .decrement => .decrement

/-- How an operator between operands is written. -/
def BinaryOp.mark : BinaryOp → Mark
  | .add => .plus
  | .sub => .minus
  | .mul => .star
  | .div => .slash
  | .and => .ampersand
  | .or => .bar
  | .equal => .equal
  | .notEqual => .notEqual
  | .less => .less
  | .lessOrEqual => .lessOrEqual
  | .greater => .greater
  | .greaterOrEqual => .greaterOrEqual
  | .shiftLeft => .shiftLeft
  | .shiftRight => .shiftRight

/-- The level of steps after an operand. Terms without operators are of level 0. -/
def trailingLevel : Nat := 1

/-- The level of operators before an operand. -/
def leadingLevel : Nat := 2

/-- The levels of operators between operands. -/
def BinaryOp.level : BinaryOp → Nat
  | .mul | .div => 3
  | .add | .sub => 4
  | .shiftLeft | .shiftRight => 5
  | .less | .lessOrEqual | .greater | .greaterOrEqual => 6
  | .equal | .notEqual => 7
  | .and | .or => 8

/-- The level of the loosest operators between operands. -/
def binaryLevel : Nat := 8

/-- The level of assignment, at which everything can stand. -/
def loosestLevel : Nat := 9

/-- Binary operators bind looser than leading ones, up to a level of their own. -/
theorem BinaryOp.level_bounds (op : BinaryOp) : leadingLevel < op.level ∧ op.level ≤ binaryLevel := by
  cases op <;> decide

/-! ## Terms and their tokens -/

/-- An expression as it is written. -/
inductive Term
  | integer (value : UInt16)
  | character (byte : UInt8)
  | string (bytes : List UInt8)
  | name (text : String)
  | call (function : String) (arguments : List Term)
  | trailing (step : Step) (operand : Term)
  | leading (op : UnaryOp) (operand : Term)
  | binary (op : BinaryOp) (left right : Term)
  | assign (target value : Term)

/-- Whether a token can stand at the beginning of a term. -/
def Token.begins : Token → Bool
  | .integer _ | .character _ | .string _ | .identifier _ => true
  | .mark .openParen => true
  | .mark m => leadingOperators.any (·.1 = m)
  | .keyword _ | .inclusion => false

namespace Term

/-- How loosely the outermost operator binds. -/
def level : Term → Nat
  | integer _ | character _ | string _ | name _ | call _ _ => 0
  | trailing _ _ => trailingLevel
  | leading _ _ => leadingLevel
  | binary op _ _ => op.level
  | assign _ _ => loosestLevel

/-- Tokens in parentheses. -/
def parenthesized (tokens : List Token) : List Token :=
  .mark .openParen :: (tokens ++ [.mark .closeParen])

/-- Lists of tokens with commas between them. -/
def commaSeparated (lists : List (List Token)) : List Token := [.mark .comma].intercalate lists

theorem commaSeparated_nil : commaSeparated [] = [] := rfl

theorem commaSeparated_singleton (tokens : List Token) : commaSeparated [tokens] = tokens :=
  List.intercalate_singleton

theorem commaSeparated_cons (first second : List Token) (rest : List (List Token)) :
    commaSeparated (first :: second :: rest) =
      first ++ .mark .comma :: commaSeparated (second :: rest) := by
  rw [commaSeparated, List.intercalate_cons_cons, List.append_assoc]
  rfl

/-- What is separated by commas begins like the first of it. -/
theorem head?_commaSeparated {first : List Token} (h : first ≠ []) (others : List (List Token))
    (rest : List Token) : (commaSeparated (first :: others) ++ rest).head? = first.head? := by
  obtain ⟨token, tokens, rfl⟩ := List.exists_cons_of_ne_nil h
  cases others with
  | nil =>
      rw [commaSeparated_singleton]
      rfl
  | cons second others =>
      rw [commaSeparated_cons, List.append_assoc]
      rfl

theorem length_le_commaSeparated {lists : List (List Token)} (h : ∀ list ∈ lists, list ≠ []) :
    lists.length ≤ (commaSeparated lists).length := by
  induction lists with
  | nil => exact Nat.le_refl _
  | cons first others ih =>
      obtain ⟨hfirst, hothers⟩ := List.forall_mem_cons.mp h
      have hpositive := List.length_pos_iff.mpr hfirst
      cases others with
      | nil =>
          rw [commaSeparated_singleton, List.length_singleton]
          exact hpositive
      | cons second others =>
          have hle := ih hothers
          simp only [commaSeparated_cons, List.length_append, List.length_cons] at hle ⊢
          omega

/-- The tokens that spell a term where terms up to a level can stand. -/
inductive Spelling : Nat → Term → List Token → Prop
  | integer (value : UInt16) : Spelling 0 (.integer value) [.integer value]
  | character (byte : UInt8) : Spelling 0 (.character byte) [.character byte]
  | string (bytes : List UInt8) : Spelling 0 (.string bytes) [.string bytes]
  | name (text : String) : Spelling 0 (.name text) [.identifier text]
  | call {function : String} {arguments : List (Term × List Token)}
      (h : ∀ argument ∈ arguments, Spelling loosestLevel argument.1 argument.2) :
      Spelling 0 (.call function (arguments.map (·.1)))
        (.identifier function :: parenthesized (commaSeparated (arguments.map (·.2))))
  | parenthesized {t : Term} {tokens : List Token} (h : Spelling loosestLevel t tokens) :
      Spelling 0 t (Term.parenthesized tokens)
  | trailing {t : Term} {tokens : List Token} (step : Step) (h : Spelling trailingLevel t tokens) :
      Spelling trailingLevel (.trailing step t) (tokens ++ [.mark step.mark])
  | leading {t : Term} {tokens : List Token} (op : UnaryOp) (h : Spelling leadingLevel t tokens) :
      Spelling leadingLevel (.leading op t) (.mark op.mark :: tokens)
  /-- The operands of one level group to the left. -/
  | binary {left right : Term} {before after : List Token} {tighter : Nat} (op : BinaryOp)
      (hlevel : op.level = tighter + 1) (hleft : Spelling op.level left before)
      (hright : Spelling tighter right after) :
      Spelling op.level (.binary op left right) (before ++ .mark op.mark :: after)
  /-- Assignments group to the right. -/
  | assign {target value : Term} {before after : List Token}
      (htarget : Spelling binaryLevel target before) (hvalue : Spelling loosestLevel value after) :
      Spelling loosestLevel (.assign target value) (before ++ .mark .assign :: after)
  /-- What is tighter can stand where something looser can. -/
  | looser {t : Term} {tokens : List Token} {tighter : Nat} (hlevel : tighter < loosestLevel)
      (h : Spelling tighter t tokens) : Spelling (tighter + 1) t tokens

theorem Spelling.mono {t : Term} {tokens : List Token} {tighter looser : Nat}
    (h : Spelling tighter t tokens) (hle : tighter ≤ looser) (hlooser : looser ≤ loosestLevel) :
    Spelling looser t tokens := by
  induction hle with
  | refl => exact h
  | @step between hle ih => exact .looser hlooser (ih (Nat.le_of_lt hlooser))

theorem Spelling.le {t : Term} {tokens : List Token} {level : Nat} (h : Spelling level t tokens) :
    level ≤ loosestLevel := by
  cases h with
  | binary op => exact Nat.le_succ_of_le op.level_bounds.2
  | looser hlevel => exact hlevel
  | _ => decide

/-! ## How terms begin -/

theorem Spelling.begins {t : Term} {tokens : List Token} {level : Nat} (h : Spelling level t tokens) :
    ∃ token rest, tokens = token :: rest ∧ token.begins = true := by
  induction h with
  | integer value => exact ⟨_, _, rfl, rfl⟩
  | character byte => exact ⟨_, _, rfl, rfl⟩
  | string bytes => exact ⟨_, _, rfl, rfl⟩
  | name text => exact ⟨_, _, rfl, rfl⟩
  | call => exact ⟨_, _, rfl, rfl⟩
  | parenthesized => exact ⟨_, _, rfl, rfl⟩
  | leading op => exact ⟨_, _, rfl, by cases op <;> rfl⟩
  | trailing step h ih =>
      obtain ⟨token, rest, rfl, hbegins⟩ := ih
      exact ⟨token, _, rfl, hbegins⟩
  | binary op hlevel hleft hright ih =>
      obtain ⟨token, rest, rfl, hbegins⟩ := ih
      exact ⟨token, _, rfl, hbegins⟩
  | assign htarget hvalue ih =>
      obtain ⟨token, rest, rfl, hbegins⟩ := ih
      exact ⟨token, _, rfl, hbegins⟩
  | looser _ _ ih => exact ih

theorem Spelling.length_pos {t : Term} {tokens : List Token} {level : Nat}
    (h : Spelling level t tokens) : 0 < tokens.length := by
  obtain ⟨token, rest, rfl, -⟩ := h.begins
  exact Nat.succ_pos _

/-- A token that begins no term does not stand in front of one. -/
theorem Spelling.head?_ne {t : Term} {tokens : List Token} {level : Nat}
    (h : Spelling level t tokens) {token : Token} (htoken : token.begins = false)
    (rest : List Token) : (tokens ++ rest).head? ≠ some token := by
  obtain ⟨first, others, rfl, hbegins⟩ := h.begins
  rintro ⟨⟩
  rw [htoken] at hbegins
  cases hbegins

/-! ## Writing terms -/

/-- When an operand of some level is put in parentheses at a place for terms up to another one. -/
abbrev Style := Nat → Nat → Bool

/-- Only what binds too loosely for its place is put in parentheses. -/
def sparing : Style := fun place own => decide (place < own)

/-- All operands that have operators themselves are put in parentheses. -/
def lavish : Style := fun _ own => decide (0 < own)

/-- The tokens of an operand at its place. -/
def operand (style : Style) (place own : Nat) (tokens : List Token) : List Token :=
  if style place own then parenthesized tokens else tokens

mutual

/-- The tokens of a term in a style. -/
def write (style : Style) : Term → List Token
  | integer value => [.integer value]
  | character byte => [.character byte]
  | string bytes => [.string bytes]
  | name text => [.identifier text]
  | call function arguments =>
      .identifier function :: parenthesized (commaSeparated (writeAll style arguments))
  | trailing step t => operand style trailingLevel t.level (t.write style) ++ [.mark step.mark]
  | leading op t => .mark op.mark :: operand style leadingLevel t.level (t.write style)
  | binary op left right =>
      operand style op.level left.level (left.write style) ++
        .mark op.mark :: operand style (op.level - 1) right.level (right.write style)
  | assign target value =>
      operand style binaryLevel target.level (target.write style) ++
        .mark .assign :: operand style loosestLevel value.level (value.write style)

/-- The tokens of arguments. -/
def writeAll (style : Style) : List Term → List (List Token)
  | [] => []
  | t :: rest => operand style loosestLevel t.level (t.write style) :: writeAll style rest

end

theorem operand_spelling {style : Style} (hstyle : ∀ place own, place < own → style place own = true)
    {t : Term} {tokens : List Token} (h : Spelling t.level t tokens) {place : Nat}
    (hplace : place ≤ loosestLevel) : Spelling place t (operand style place t.level tokens) := by
  unfold operand
  split
  · exact (Spelling.parenthesized (h.mono h.le (Nat.le_refl _))).mono (Nat.zero_le _) hplace
  next hplain =>
    have hle : t.level ≤ place := Nat.le_of_not_lt fun hlt => hplain (hstyle place t.level hlt)
    exact h.mono hle hplace

mutual

/-- What is written in a style with enough parentheses spells the term. -/
theorem write_spelling {style : Style} (hstyle : ∀ place own, place < own → style place own = true) :
    ∀ t : Term, Spelling t.level t (t.write style)
  | .integer value => .integer value
  | .character byte => .character byte
  | .string bytes => .string bytes
  | .name text => .name text
  | .call function arguments => by
      obtain ⟨parts, harguments, htokens, hparts⟩ := writeAll_spelling hstyle arguments
      rw [write, ← htokens, ← harguments]
      exact .call hparts
  | .trailing step t => by
      rw [write]
      exact .trailing step (operand_spelling hstyle (write_spelling hstyle t) (by decide))
  | .leading op t => by
      rw [write]
      exact .leading op (operand_spelling hstyle (write_spelling hstyle t) (by decide))
  | .binary op left right => by
      obtain ⟨hlower, hupper⟩ := op.level_bounds
      have hle : op.level ≤ loosestLevel := Nat.le_succ_of_le hupper
      have hsucc : op.level = (op.level - 1) + 1 := by omega
      rw [write]
      exact .binary op hsucc (operand_spelling hstyle (write_spelling hstyle left) hle)
        (operand_spelling hstyle (write_spelling hstyle right) (by omega))
  | .assign target value => by
      rw [write]
      exact .assign (operand_spelling hstyle (write_spelling hstyle target) (by decide))
        (operand_spelling hstyle (write_spelling hstyle value) (by decide))

theorem writeAll_spelling {style : Style}
    (hstyle : ∀ place own, place < own → style place own = true) :
    ∀ arguments : List Term, ∃ parts : List (Term × List Token),
      parts.map (·.1) = arguments ∧ parts.map (·.2) = writeAll style arguments ∧
        ∀ part ∈ parts, Spelling loosestLevel part.1 part.2
  | [] => ⟨[], rfl, rfl, by simp⟩
  | t :: rest => by
      obtain ⟨parts, harguments, htokens, hparts⟩ := writeAll_spelling hstyle rest
      have ht := operand_spelling hstyle (write_spelling hstyle t) (Nat.le_refl loosestLevel)
      refine ⟨(t, operand style loosestLevel t.level (t.write style)) :: parts, ?_, ?_, ?_⟩
      · rw [List.map_cons, harguments]
      · rw [List.map_cons, htokens, writeAll]
      · exact List.forall_mem_cons.mpr ⟨ht, hparts⟩

end

theorem sparing_encloses (place own : Nat) (h : place < own) : sparing place own = true :=
  decide_eq_true h

theorem lavish_encloses (place own : Nat) (h : place < own) : lavish place own = true :=
  decide_eq_true (Nat.zero_lt_of_lt h)

end Term

end AccumulatorC
