import AccumulatorC.Proofs.Lowering.GlobalCode
import AccumulatorC.Proofs.Lowering.ItemCodes

/-!
# The data of global variables

The data of a variable stands between instructions, behind a jump over it that is written as the
variable's label and a distance. The distance is the size of the variable's type. So is the number
of bytes behind the label, with one exception: a string literal is stored by its address, which has
two bytes, also in a variable that has one.
-/

namespace AccumulatorC

open Lowering

/-! ## Bytes of lines -/

/-- Bytes that data takes. -/
def Data.bytes : Data → Nat
  | space bytes => bytes
  | byte _ => 1
  | word _ | address _ => 2
  | text bytes => bytes.length + 1

def Line.isData : Line → Bool
  | data _ => true
  | label _ | instr _ => false

/-- Bytes that a line takes, where instructions have certain sizes. -/
def Line.bytes (size : Instr → Nat) : Line → Nat
  | label _ => 0
  | instr i => size i
  | data d => d.bytes

/-- Bytes from the start of a code to its end. -/
def extent (size : Instr → Nat) (code : List Line) : Nat := (code.map (Line.bytes size)).sum

@[simp] theorem extent_nil (size : Instr → Nat) : extent size [] = 0 := rfl

@[simp] theorem extent_cons (size : Instr → Nat) (line : Line) (code : List Line) :
    extent size (line :: code) = line.bytes size + extent size code := by
  simp [extent]

@[simp] theorem extent_append (size : Instr → Nat) (code rest : List Line) :
    extent size (code ++ rest) = extent size code + extent size rest := by
  simp [extent]

/-- The data at the front of a code, up to the first line that is none. -/
def leadingData (code : List Line) : List Line := code.takeWhile Line.isData

@[simp] theorem leadingData_data (d : Data) (code : List Line) :
    leadingData (.data d :: code) = .data d :: leadingData code := rfl

/-- Codes that begin with no data can be joined. -/
theorem leadingData_append {code rest : List Line} (hcode : leadingData code = [])
    (hrest : leadingData rest = []) : leadingData (code ++ rest) = [] := by
  cases code with
  | nil => exact hrest
  | cons line code =>
      cases line with
      | data d => cases hcode
      | label l => rfl
      | instr i => rfl

theorem leadingData_flatten {codes : List (List Line)} {rest : List Line}
    (hcodes : ∀ code ∈ codes, leadingData code = []) (hrest : leadingData rest = []) :
    leadingData (codes.flatten ++ rest) = [] := by
  induction codes with
  | nil => exact hrest
  | cons code codes ih =>
      rw [List.flatten_cons, List.append_assoc]
      apply leadingData_append (hcodes code List.mem_cons_self)
      exact ih fun code hmem => hcodes code (List.mem_cons_of_mem _ hmem)

/-! ## The jump over a variable -/

namespace Declaration

/-- The jump over the data of a variable is exact. The data behind the label has as many bytes as
the type of the variable, which are as many as the jump adds to the label; so the jump goes on at
the first line that is no data, whatever the sizes of instructions. -/
def SkippedExactly (declared : Declaration) (lines : List Line) : Prop :=
  ∃ before after, lines = before ++ (declared.head ++ after) ∧
    ∀ size : Instr → Nat, extent size (leadingData after) = declared.symbol.type.size ∧
      extent size (before ++ declared.head) + declared.symbol.type.size =
        extent size (before ++ declared.head ++ leadingData after)

namespace Stores

variable {declared : Declaration} {strings : Nat} {front : List Line} {data : Data}

theorem leadingData_front (h : declared.Stores strings front data) : leadingData front = [] := by
  cases h <;> rfl

/-- The data of a variable has as many bytes as its type, unless it is the address of a string. -/
theorem bytes_eq {scopes : Scopes} (h : declared.Stores strings front data)
    (hinitial : ∀ value, declared.initial = some value →
      value.WellFormed scopes globalScope ∧ declared.symbol.type.Accepts value.type ∧
        value.isInitializer = true) :
    data.bytes = if declared.startsAsString then 2 else declared.symbol.type.size := by
  cases h with
  | nothing hnone => simp [startsAsString, hnone, Data.bytes]
  | string hvalue => simp [startsAsString, hvalue, Expr.isString, Data.bytes]
  | byte hvalue hstring hsize => simp [startsAsString, hvalue, hstring, hsize, Data.bytes]
  | word hvalue hstring hsize =>
      have htwo := (Ty.size_of_isScalar (hinitial _ hvalue).2.1.isScalar.1).resolve_left hsize
      simp [startsAsString, hvalue, hstring, htwo, Data.bytes]

end Stores

theorem leadingData_lowerGlobal (declared : Declaration) (state : LowerState) :
    Ensures declared.lowerGlobal state fun _ code _ => leadingData code = [] := by
  refine (declared.lowerGlobal_code state).mono ?_
  intro _ code _ hcode
  by_cases hexternal : declared.symbol.storage = .external
  · rw [hcode.1 hexternal]
    rfl
  · obtain ⟨front, data, rfl, hstores⟩ := hcode.2 hexternal
    exact leadingData_append hstores.leadingData_front rfl

end Declaration

/-- The code of a function begins with its label. -/
theorem Function.leadingData_lower (scopes : Scopes) (function : Function) (state : LowerState) :
    Ensures (function.lower scopes) state fun _ code _ => leadingData code = [] := by
  unfold Function.lower
  simp only [ensures_bind, ensures_visit, ensures_lift, ensures_mark, ensures_reserve,
    ensures_release, ensures_emit]
  intro _ _
  refine (ensures_self _ _).mono ?_
  intro _ _ _ _
  rfl

theorem Item.leadingData_lower (scopes : Scopes) (item : Item) (state : LowerState) :
    Ensures (item.lower scopes) state fun _ code _ => leadingData code = [] := by
  cases item with
  | global declared => exact declared.leadingData_lowerGlobal state
  | function defined => exact defined.leadingData_lower scopes state

namespace Program.WellFormed

variable {program : Program} (h : program.WellFormed)
include h

/-- Where a variable stands in the lines of its program: its label is put nowhere else, and one line
of data is behind it, of which all holds that holds of the variable's data. -/
theorem global_line {lines : List Line} (hlines : program.lines = .ok lines)
    {declared : Declaration} (hmem : .global declared ∈ program.items)
    (hown : declared.symbol.storage ≠ .external) {post : Data → Prop}
    (hdata : ∀ state, Ensures declared.data state fun data _ _ => post data) :
    ∃ before data after, lines = before ++ (declared.head ++ .data data :: after) ∧
      .label (.symbol declared.symbol.name) ∉ before ∧
      .label (.symbol declared.symbol.name) ∉ after ∧
      leadingData after = [] ∧ post data := by
  obtain ⟨earlier, later, hitems⟩ := List.append_of_mem hmem
  obtain ⟨codes, last, hcodes, hparts⟩ := Program.lines_parts hlines
  rw [hitems] at hcodes
  obtain ⟨previous, code, behind, start, rest, rfl, -, hrun, hbehind⟩ := hcodes.split
  obtain ⟨front, data, rfl, hpost⟩ :=
    ((declared.lowerGlobal_ensures start (hdata _)).apply hrun).2 hown
  -- No code of the later items begins with data, and the label of the heap is none.
  have hafter : leadingData (behind.flatten ++ [.label .heap]) = [] := by
    apply leadingData_flatten _ rfl
    exact hbehind.forall_mem (fun _ => True) (fun code => leadingData code = []) trivial
      fun item _ state _ => (item.leadingData_lower program.scopes state).mono
        fun _ _ _ hnone => ⟨trivial, hnone⟩
  have hwhole : lines = (startLines ++ previous.flatten ++ front) ++
      (declared.head ++ .data data :: (behind.flatten ++ [.label .heap])) := by
    rw [hparts]
    simp
  have hnodup := h.labels_nodup hlines
  rw [hwhole, labels_append, Declaration.head, List.cons_append, List.cons_append, labels_instr,
    labels_label, List.nil_append, labels_data, List.nodup_middle, List.nodup_cons,
    List.mem_append, mem_labels, mem_labels] at hnodup
  exact ⟨_, data, _, hwhole, fun hbefore => hnodup.1 (.inl hbefore),
    fun hlater => hnodup.1 (.inr hlater), hafter, hpost⟩

theorem global_parts {lines : List Line} (hlines : program.lines = .ok lines)
    {declared : Declaration} (hmem : .global declared ∈ program.items)
    (hown : declared.symbol.storage ≠ .external) :
    ∃ before data after, lines = before ++ (declared.head ++ .data data :: after) ∧
      .label (.symbol declared.symbol.name) ∉ before ∧
      .label (.symbol declared.symbol.name) ∉ after ∧
      leadingData after = [] ∧
      data.bytes = if declared.startsAsString then 2 else declared.symbol.type.size := by
  refine h.global_line hlines hmem hown fun state => (declared.data_stores state).mono ?_
  intro data _ _ hstores
  exact hstores.bytes_eq fun value hvalue => h.globals declared value hmem hvalue

end Program.WellFormed

/-- Whether the jump over a variable is exact depends on the one line of data behind its label. -/
theorem Declaration.skippedExactly_iff {declared : Declaration} {before after : List Line}
    {data : Data} (hbefore : .label (.symbol declared.symbol.name) ∉ before)
    (hafter : .label (.symbol declared.symbol.name) ∉ after) (hnone : leadingData after = []) :
    declared.SkippedExactly (before ++ (declared.head ++ .data data :: after)) ↔
      data.bytes = declared.symbol.type.size := by
  constructor
  · intro hexact
    obtain ⟨before', after', hparts, hbytes⟩ := hexact
    -- The label is put once, so there is one way to take the lines apart.
    have hsame : after' = .data data :: after := by
      have hleft : .label (.symbol declared.symbol.name) ∉
          before ++ [.instr (.skip declared.symbol.name declared.symbol.type.size)] := by
        simpa using hbefore
      have hright : .label (.symbol declared.symbol.name) ∉ Line.data data :: after := by
        simpa using hafter
      have hjoined :
          (before ++ [.instr (.skip declared.symbol.name declared.symbol.type.size)]) ++
            .label (.symbol declared.symbol.name) :: (.data data :: after) =
          (before' ++ [.instr (.skip declared.symbol.name declared.symbol.type.size)]) ++
            .label (.symbol declared.symbol.name) :: after' := by
        simpa [Declaration.head] using hparts
      exact ((List.append_cons_inj_of_notMem hleft hright).mp hjoined).2.2.symm
    have hcount := (hbytes fun _ => 0).1
    rw [hsame, leadingData_data, hnone] at hcount
    simpa [Line.bytes] using hcount
  · intro hbytes
    refine ⟨before, .data data :: after, rfl, fun size => ?_⟩
    rw [leadingData_data, hnone, extent_append, extent_append, extent_append, extent_cons,
      extent_nil]
    exact ⟨hbytes, by simp only [Line.bytes]; omega⟩

/-- A variable that starts with the address of a string has a type with values. -/
theorem Program.WellFormed.size_of_startsAsString {program : Program} (h : program.WellFormed)
    {declared : Declaration} (hmem : .global declared ∈ program.items)
    (hstring : declared.startsAsString = true) :
    2 = declared.symbol.type.size ↔ declared.symbol.type ≠ .char := by
  obtain ⟨value, hvalue, -⟩ := (Option.any_eq_true _ _).mp hstring
  have hscalar := (h.globals declared value hmem hvalue).2.1.isScalar.1
  cases htype : declared.symbol.type with
  | void => rw [htype] at hscalar; cases hscalar
  | function => rw [htype] at hscalar; cases hscalar
  | char => simp [Ty.size]
  | int => simp [Ty.size]
  | pointer => simp [Ty.size]

/-- Every variable of a compiled program that is not defined elsewhere has one jump over its data, as
far as its type is large, and one line of data behind its label. The jump is exact unless the
variable is a character that starts with the address of a string literal, which has two bytes. -/
theorem Program.globals_skipped {tokens : List (Located Token)} {parsed : Parsed}
    {lines : List Line} {declared : Declaration} (hparsed : Program.ofTokens tokens = .ok parsed)
    (hlines : parsed.program.lines = .ok lines) (hmem : .global declared ∈ parsed.program.items)
    (hown : declared.symbol.storage ≠ .external) :
    (∃ before data after, lines = before ++ (declared.head ++ .data data :: after) ∧
      .label (.symbol declared.symbol.name) ∉ before ∧
      .label (.symbol declared.symbol.name) ∉ after ∧
      leadingData (.data data :: after) = [.data data] ∧
      data.bytes = if declared.startsAsString then 2 else declared.symbol.type.size) ∧
    (declared.SkippedExactly lines ↔
      ¬ (declared.symbol.type = .char ∧ declared.startsAsString = true)) := by
  have hwf := Program.ofTokens_wellFormed hparsed
  obtain ⟨before, data, after, rfl, hbefore, hafter, hnone, hbytes⟩ :=
    hwf.global_parts hlines hmem hown
  refine ⟨⟨before, data, after, rfl, hbefore, hafter, by rw [leadingData_data, hnone], hbytes⟩, ?_⟩
  rw [Declaration.skippedExactly_iff hbefore hafter hnone, hbytes]
  cases hstring : declared.startsAsString with
  | false => simp
  | true => simpa using hwf.size_of_startsAsString hmem hstring

/-! ## A program with two variables -/

/-- The tokens of a character that starts with the address of a string and of a number,
`char g = "x"; int n = 300; char main() { return 0; }`. -/
def storedTokens : List (Located Token) :=
  ([.keyword .charType, .identifier "g", .mark .assign, .string [120], .mark .semicolon,
    .keyword .intType, .identifier "n", .mark .assign, .integer 300, .mark .semicolon,
    .keyword .charType, .identifier "main", .mark .openParen, .mark .closeParen, .mark .openBrace,
    .keyword .returning, .integer 0, .mark .semicolon, .mark .closeBrace] : List Token).map
      (⟨·, .startOf "<input>"⟩)

/-- What is read from them. -/
def stored : Parsed := (Program.ofTokens storedTokens).toOption.getD ⟨⟨[], .initial⟩, []⟩

theorem stored_read : Program.ofTokens storedTokens = .ok stored :=
  eq_ok_of_isOk (by decide +kernel) _

theorem stored_lines : ∃ lines, stored.program.lines = .ok lines :=
  ⟨_, eq_ok_of_isOk (by decide +kernel) []⟩

/-- Whether an item is a global variable of which something holds. -/
def Item.isGlobalWith (holds : Declaration → Bool) : Item → Bool
  | .global declared => holds declared
  | .function _ => false

theorem Item.isGlobalWith_eq_true {holds : Declaration → Bool} {item : Item} :
    item.isGlobalWith holds = true ↔ ∃ declared, item = .global declared ∧ holds declared = true := by
  cases item with
  | global => simp [isGlobalWith]
  | function => simp [isGlobalWith]

/-- The jump over the number is exact. -/
theorem stored_globals_skipped :
    ∃ lines declared, stored.program.lines = .ok lines ∧
      .global declared ∈ stored.program.items ∧ declared.symbol.storage ≠ .external ∧
      declared.symbol.name = "n" ∧
      (∃ before data after, lines = before ++ (declared.head ++ .data data :: after) ∧
        .label (.symbol declared.symbol.name) ∉ before ∧
        .label (.symbol declared.symbol.name) ∉ after ∧
        leadingData (.data data :: after) = [.data data] ∧
        data.bytes = if declared.startsAsString then 2 else declared.symbol.type.size) ∧
      (declared.SkippedExactly lines ↔
        ¬ (declared.symbol.type = .char ∧ declared.startsAsString = true)) ∧
      declared.SkippedExactly lines := by
  have hfound : (stored.program.items.any (·.isGlobalWith fun declared =>
      decide (declared.symbol.storage ≠ .external) && decide (declared.symbol.name = "n") &&
        !declared.startsAsString)) = true := by decide +kernel
  obtain ⟨item, hmem, hitem⟩ := List.any_eq_true.mp hfound
  obtain ⟨declared, rfl, hdeclared⟩ := Item.isGlobalWith_eq_true.mp hitem
  simp only [Bool.and_eq_true, decide_eq_true_eq, Bool.not_eq_true'] at hdeclared
  obtain ⟨⟨hown, hname⟩, hstring⟩ := hdeclared
  obtain ⟨lines, hlines⟩ := stored_lines
  obtain ⟨hparts, hexact⟩ := Program.globals_skipped stored_read hlines hmem hown
  refine ⟨lines, declared, hlines, hmem, hown, hname, hparts, hexact, hexact.mpr ?_⟩
  simp [hstring]

/-- The jump over the character is not: the address of the string has a byte more. -/
theorem stored_not_skipped_exactly :
    ∃ lines declared, Program.ofTokens storedTokens = .ok stored ∧
      stored.program.lines = .ok lines ∧ .global declared ∈ stored.program.items ∧
      declared.symbol.storage ≠ .external ∧ declared.symbol.name = "g" ∧
      ¬ declared.SkippedExactly lines := by
  have hfound : (stored.program.items.any (·.isGlobalWith fun declared =>
      decide (declared.symbol.storage ≠ .external) && decide (declared.symbol.name = "g") &&
        decide (declared.symbol.type = .char) && declared.startsAsString)) = true := by
    decide +kernel
  obtain ⟨item, hmem, hitem⟩ := List.any_eq_true.mp hfound
  obtain ⟨declared, rfl, hdeclared⟩ := Item.isGlobalWith_eq_true.mp hitem
  simp only [Bool.and_eq_true, decide_eq_true_eq] at hdeclared
  obtain ⟨⟨⟨hown, hname⟩, htype⟩, hstring⟩ := hdeclared
  obtain ⟨lines, hlines⟩ := stored_lines
  obtain ⟨before, data, after, rfl, hbefore, hafter, hnone, hbytes⟩ :=
    (Program.ofTokens_wellFormed stored_read).global_parts hlines hmem hown
  refine ⟨_, declared, stored_read, hlines, hmem, hown, hname, ?_⟩
  rw [Declaration.skippedExactly_iff hbefore hafter hnone, hbytes, hstring, htype]
  decide

end AccumulatorC
