import AccumulatorC.Proofs.Program.Compiling

/-!
# The operands of steps

`++` and `--` are read as an assignment of the neighbouring value, in which the place stands twice.
So a call or a string literal in the place is written once and evaluated twice, and the code of a
function has the calls and string literals of its body, and those in the operands of steps once more.
-/

namespace AccumulatorC

open Lowering

namespace Expr

variable {scope : ScopeId} {location : Location} {op back : UnaryOp} {target : Expr}
  {noted : Noted Expr}

/-- A step is written as its place, which it evaluates twice. -/
theorem stepped_evaluated (hop : op.steps = true) (h : stepped scope location op target = .ok noted) :
    noted.value.written = target.written ∧
      noted.value.evaluated = target.evaluated ++ target.evaluated := by
  refine ⟨(stepped_spelled hop h).1.1, ?_⟩
  unfold stepped at h
  split at h
  next =>
    simp only [bind_eq_ok, pure_eq_ok] at h
    obtain ⟨neighbour, hneighbour, step, hstep, rfl⟩ := h
    obtain ⟨note, hunary⟩ := applied_eq_ok hneighbour
    obtain ⟨-, note', hassign⟩ := assigned_eq_ok hstep
    show step.value.evaluated = _
    rw [hassign, hunary]
    rfl
  next => cases h

/-- So is a step that gives the former value. -/
theorem steppedAfter_evaluated (hop : op.steps = true)
    (h : steppedAfter scope location op back target = .ok noted) :
    noted.value.written = target.written ∧
      noted.value.evaluated = target.evaluated ++ target.evaluated := by
  refine ⟨(steppedAfter_spelled hop h).1, ?_⟩
  simp only [steppedAfter, bind_eq_ok, pure_eq_ok] at h
  obtain ⟨step, hstep, former, hformer, rfl⟩ := h
  obtain ⟨note, hunary⟩ := applied_eq_ok hformer
  show former.value.evaluated = _
  rw [hunary]
  exact (stepped_evaluated hop hstep).2

end Expr

/-! ## Functions -/

/-- The code of a function has its calls and string literals as they are written, and those in the
operands of steps once more. -/
structure Function.Repeats (function : Function) (code : List Line) : Prop where
  shown_eq : shown code = function.evaluated
  perm : (shown code).Perm (function.written ++ function.repeated)
  once_iff : (shown code).Perm function.written ↔ ∀ node ∈ function.nodes, node.again = []

theorem Function.Shown.repeats {scopes : Scopes} {function : Function} {code : List Line}
    (h : function.Shown scopes code) : function.Repeats code where
  shown_eq := h.shown_eq
  perm := h.shown_eq ▸ function.evaluated_perm
  once_iff := h.shown_eq ▸ function.evaluated_perm_written_iff

/-- The codes of the functions among the items of a program. -/
theorem Program.WellFormed.functions_repeat {program : Program} (h : program.WellFormed)
    {lines : List Line} (hlines : program.lines = .ok lines) :
    ∃ codes, lines = startLines ++ (codes.flatten ++ [.label .heap]) ∧
      List.Forall₂ (fun item code => ∀ function, item = .function function → function.Repeats code)
        program.items codes := by
  obtain ⟨codes, after, hcodes, hparts⟩ := Program.lines_parts hlines
  refine ⟨codes, hparts, hcodes.forall₂ (fun _ => True) _ trivial ?_⟩
  intro item hmem state _
  cases item with
  | global declared =>
      refine (ensures_self _ state).mono ?_
      rintro _ _ _ _
      exact ⟨trivial, by simp⟩
  | function defined =>
      refine ((h.functions defined hmem).shown_lower h.scopes state).mono ?_
      rintro _ code _ hshown
      refine ⟨trivial, ?_⟩
      rintro _ ⟨⟩
      exact hshown.repeats

/-- A step is written as its place and evaluates it twice. So among the tokens and the lines of each
function of a program, the calls and the strings in the lines are those in the tokens and, once more,
those in the operands of steps; they are the same exactly if there are none in such operands. -/
theorem Program.step_operands_repeated {tokens : List (Located Token)} {parsed : Parsed}
    {lines : List Line} (hparsed : Program.ofTokens tokens = .ok parsed)
    (hlines : parsed.program.lines = .ok lines) :
    (∀ scope location op target noted, op.steps = true →
      Expr.stepped scope location op target = .ok noted →
        noted.value.written = target.written ∧
          noted.value.evaluated = target.evaluated ++ target.evaluated) ∧
    (∀ scope location op back target noted, op.steps = true →
      Expr.steppedAfter scope location op back target = .ok noted →
        noted.value.written = target.written ∧
          noted.value.evaluated = target.evaluated ++ target.evaluated) ∧
    ∃ spans codes, tokens.map (·.value) = spans.flatten ∧
      lines = startLines ++ (codes.flatten ++ [.label .heap]) ∧
      List.Forall₂ (fun span item => mentions span = item.written) spans parsed.program.items ∧
      List.Forall₂ (fun item code => ∀ function, item = .function function → function.Repeats code)
        parsed.program.items codes := by
  obtain ⟨spans, hspans, hwritten⟩ := (Program.ofTokens_written hparsed).1
  obtain ⟨codes, hparts, hrepeats⟩ := (Program.ofTokens_wellFormed hparsed).functions_repeat hlines
  exact ⟨fun _ _ _ _ _ hop h => Expr.stepped_evaluated hop h,
    fun _ _ _ _ _ _ hop h => Expr.steppedAfter_evaluated hop h,
    spans, codes, hspans, hparts, hwritten, hrepeats⟩

/-! ## A program with steps through pointers -/

/-- The tokens of a program that steps through the result of a call and through a string literal,
`char* f() { return 0; } char main() { ++*f(); --*"y"; return 0; }`. -/
def bumpedTokens : List (Located Token) :=
  ([.keyword .charType, .mark .star, .identifier "f", .mark .openParen, .mark .closeParen,
    .mark .openBrace, .keyword .returning, .integer 0, .mark .semicolon, .mark .closeBrace,
    .keyword .charType, .identifier "main", .mark .openParen, .mark .closeParen, .mark .openBrace,
    .mark .increment, .mark .star, .identifier "f", .mark .openParen, .mark .closeParen,
    .mark .semicolon, .mark .decrement, .mark .star, .string [121], .mark .semicolon,
    .keyword .returning, .integer 0, .mark .semicolon, .mark .closeBrace] : List Token).map
      (⟨·, .startOf "<input>"⟩)

/-- What is read from them. -/
def bumped : Parsed := (Program.ofTokens bumpedTokens).toOption.getD ⟨⟨[], .initial⟩, []⟩

theorem bumped_read : Program.ofTokens bumpedTokens = .ok bumped :=
  eq_ok_of_isOk (by decide +kernel) _

theorem bumped_operands_repeated : ∃ lines, bumped.program.lines = .ok lines ∧
    (∀ scope location op target noted, op.steps = true →
      Expr.stepped scope location op target = .ok noted →
        noted.value.written = target.written ∧
          noted.value.evaluated = target.evaluated ++ target.evaluated) ∧
    (∀ scope location op back target noted, op.steps = true →
      Expr.steppedAfter scope location op back target = .ok noted →
        noted.value.written = target.written ∧
          noted.value.evaluated = target.evaluated ++ target.evaluated) ∧
    ∃ spans codes, bumpedTokens.map (·.value) = spans.flatten ∧
      lines = startLines ++ (codes.flatten ++ [.label .heap]) ∧
      List.Forall₂ (fun span item => mentions span = item.written) spans bumped.program.items ∧
      List.Forall₂ (fun item code => ∀ function, item = .function function → function.Repeats code)
        bumped.program.items codes := by
  have hlines := eq_ok_of_isOk (show bumped.program.lines.isOk = true by decide +kernel) []
  exact ⟨_, hlines, Program.step_operands_repeated bumped_read hlines⟩

/-- The source has one call of the function, after its definition, and one string literal. The lines
have two of each. -/
theorem bumped_evaluated_twice : ∃ lines, Program.ofTokens bumpedTokens = .ok bumped ∧
    bumped.program.lines = .ok lines ∧
    (bumpedTokens.map (·.value)).count (.identifier "f") = 2 ∧
    lines.count (.instr (.call "f")) = 2 ∧
    (bumpedTokens.map (·.value)).count (.string [121]) = 1 ∧
    lines.count (.data (.text [121])) = 2 := by
  have hany : (bumped.program.lines.toOption.any fun lines =>
      decide (lines.count (.instr (.call "f")) = 2 ∧
        lines.count (.data (.text [121])) = 2)) = true := by decide +kernel
  obtain ⟨lines, hlines, hcounts⟩ := exists_eq_ok_of_any hany
  obtain ⟨hcalls, htexts⟩ := of_decide_eq_true hcounts
  exact ⟨lines, bumped_read, hlines, by decide, hcalls, by decide, htexts⟩

end AccumulatorC
