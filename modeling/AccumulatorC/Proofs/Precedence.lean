import AccumulatorC.Proofs.Program.Parser.Completeness

/-!
# Precedence and associativity

Assignment binds loosest and groups to the right. Operators between operands group to the left, in six
levels. Operators before an operand bind tighter, and steps after one tightest. So a term that is
written with parentheses only where an operand binds too loosely for its place is read as what it
elaborates to.
-/

namespace AccumulatorC

/-- A term that is written with parentheses only where an operand binds more loosely than its place
allows is read as exactly the tree that it elaborates to, up to places: wherever its names mean what
the elaboration takes them for, and whatever follows that does not go on with the term. -/
theorem Term.read_as_written {t : Term} {e : Expr} {more : List Conversion} {state : ParseState}
    {rest : List Token}
    (he : t.Elaborates (Parser.setting state).unplaced.meaning state.scope e more)
    (hcoming : state.coming = t.write sparing ++ rest) (hrest : Stops loosestLevel rest)
    (hbound : state.tokens.length ≤ state.bound) :
    ∃ found after, Parser.expression state = .ok (found, after) ∧ found.unplaced = e ∧
      after.coming = rest ∧ (Parser.setting after).unplaced = (Parser.setting state).unplaced ∧
      after.warnings.map (·.value) = state.warnings.map (·.value) ++ more := by
  have hspelling : t.Spelling loosestLevel (t.write sparing) :=
    (t.write_spelling sparing_encloses).mono (t.write_spelling sparing_encloses).le (Nat.le_refl _)
  have hlength : (t.write sparing ++ rest).length ≤ state.bound := by
    rwa [← hcoming, ParseState.coming, List.length_map]
  have hrun := Parser.expression_facing hspelling he (state.warnings.map (·.value)) hlength hrest
  rw [← hcoming, ← Parser.unplaced_eq_facing] at hrun
  obtain ⟨found, after, hread, hfound, hafter⟩ := Parser.Forgets.expression.run_ok hrun
  rw [Parser.unplaced_eq_facing] at hafter
  obtain ⟨hsetting, hwarnings, hrest⟩ := Parser.facing_inj hafter
  exact ⟨found, after, hread, hfound, hrest, hsetting, hwarnings⟩

/-! ## An expression with operators of all levels -/

/-- The variable `x`. -/
def operandX : Symbol := ⟨"x", nowhere, .int, .labelled, globalScope⟩

/-- The variable `p`. -/
def operandP : Symbol := ⟨"p", nowhere, .pointer .char, .labelled, globalScope⟩

/-- The function `f`. -/
def operandF : Symbol := ⟨"f", nowhere, .function .int [.int], .labelled, globalScope⟩

/-- The setting in which they are declared. -/
def operandSetting : Parser.Setting :=
  ⟨⟨[⟨none, [operandF, operandP, operandX], 0⟩]⟩, globalScope, none⟩

theorem operandSetting_meaning (name : String) :
    operandSetting.meaning name = [operandF, operandP, operandX].find? (·.name = name) := by
  have hchain : operandSetting.scopes.chain globalScope = [globalScope] :=
    Scopes.chain_of_root rfl rfl
  have hlookup : operandSetting.scopes.lookup? globalScope name =
      [operandF, operandP, operandX].find? (·.name = name) := by
    rw [Scopes.lookup?, hchain, List.findSome?_singleton]
    rfl
  unfold Parser.Setting.meaning Scopes.lookup
  rw [show operandSetting.scope = globalScope from rfl, hlookup]
  cases [operandF, operandP, operandX].find? (·.name = name) <;> rfl

/-- The term `x = f(x & 1 == *p++) - (x + 2) * -x >> 1 - 3`. -/
def operatorTerm : Term :=
  .assign (.name "x")
    (.binary .shiftRight
      (.binary .sub
        (.call "f" [.binary .and (.name "x") (.binary .equal (.integer 1)
          (.leading .deref (.trailing .increment (.name "p"))))])
        (.binary .mul (.binary .add (.name "x") (.integer 2)) (.leading .negate (.name "x"))))
      (.binary .sub (.integer 1) (.integer 3)))

/-- Its tokens. -/
def operatorTokens : List Token :=
  [.identifier "x", .mark .assign, .identifier "f", .mark .openParen, .identifier "x",
    .mark .ampersand, .integer 1, .mark .equal, .mark .star, .identifier "p", .mark .increment,
    .mark .closeParen, .mark .minus, .mark .openParen, .identifier "x", .mark .plus, .integer 2,
    .mark .closeParen, .mark .star, .mark .minus, .identifier "x", .mark .shiftRight, .integer 1,
    .mark .minus, .integer 3]

example : operatorTerm.write Term.sparing = operatorTokens := by decide +kernel

/-- What a node carries that is not constant. -/
def operandNote (type : Ty) : Note := ⟨type, globalScope, false, nowhere⟩

/-- What a node carries that is built from characters alone. -/
def literalNote : Note := ⟨.char, globalScope, true, nowhere⟩

/-- The tree of the term. -/
def operatorTree : Expr :=
  .assign (operandNote .int) (.name (operandNote .int) operandX)
    (.binary (operandNote .int) .shiftRight
      (.binary (operandNote .int) .sub
        (.call (operandNote .int) operandF
          [.binary (operandNote .int) .and (.name (operandNote .int) operandX)
            (.binary (operandNote .char) .equal (.number literalNote 1)
              (.unary (operandNote .char) .deref
                (.unary (operandNote (.pointer .char)) .decrement
                  (.assign (operandNote (.pointer .char)) (.name (operandNote (.pointer .char)) operandP)
                    (.unary (operandNote (.pointer .char)) .increment
                      (.name (operandNote (.pointer .char)) operandP))))))])
        (.binary (operandNote .int) .mul
          (.binary (operandNote .int) .add (.name (operandNote .int) operandX) (.number literalNote 2))
          (.unary (operandNote .int) .negate (.name (operandNote .int) operandX))))
      (.binary literalNote .sub (.number literalNote 1) (.number literalNote 3)))

/-- The term elaborates to the tree that its levels ask for. -/
theorem operatorTerm_elaborates :
    operatorTerm.Elaborates operandSetting.meaning globalScope operatorTree [] := by
  have hx : operandSetting.meaning "x" = some operandX := by rw [operandSetting_meaning]; rfl
  have hp : operandSetting.meaning "p" = some operandP := by rw [operandSetting_meaning]; rfl
  have hf : operandSetting.meaning "f" = some operandF := by rw [operandSetting_meaning]; rfl
  have hvariable : Term.Elaborates operandSetting.meaning globalScope (.name "x")
      (.name (operandNote .int) operandX) [] := .name hx rfl
  have hpointer : Term.Elaborates operandSetting.meaning globalScope (.name "p")
      (.name (operandNote (.pointer .char)) operandP) [] := .name hp rfl
  have hargument := hvariable.binary .and rfl
    (.binary .equal rfl (.integer 1) (.deref rfl (.trailing .increment rfl rfl hpointer)))
  have hcall : Term.Elaborates operandSetting.meaning globalScope (.call "f" ([(_, _, _)].map (·.1))) _ _ :=
    .call hf rfl (List.forall_mem_singleton.mpr hargument) (.cons rfl .nil)
  exact .assign rfl rfl hvariable (.binary .shiftRight rfl
    (hcall.binary .sub rfl (.binary .mul rfl (hvariable.binary .add rfl (.integer 2))
      (.signed (.inr rfl) rfl hvariable)))
    (.binary .sub rfl (.integer 1) (.integer 3)))

/-- In front of a semicolon it is read as that tree. -/
theorem operatorTerm_read : operatorTerm.Elaborates operandSetting.meaning globalScope operatorTree [] ∧
    ∃ found after,
      Parser.expression (Parser.facing 26 operandSetting []
        (operatorTerm.write Term.sparing ++ [.mark .semicolon])) = .ok (found, after) ∧
      found.unplaced = operatorTree ∧ after.coming = [.mark .semicolon] := by
  refine ⟨operatorTerm_elaborates, ?_⟩
  have hstop : Stops loosestLevel [.mark .semicolon] :=
    .of_eq rfl (Token.not_continues (.inr (.inr rfl)) _)
  obtain ⟨found, after, hrun, hfound, hafter, -⟩ :=
    @Term.read_as_written operatorTerm operatorTree []
      (Parser.facing 26 operandSetting [] (operatorTerm.write Term.sparing ++ [.mark .semicolon]))
      [.mark .semicolon] operatorTerm_elaborates (by decide +kernel) hstop (by decide +kernel)
  exact ⟨found, after, hrun, hfound, hafter⟩

end AccumulatorC
