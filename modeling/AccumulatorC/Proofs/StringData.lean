import AccumulatorC.Proofs.Machine.StringTexts
import AccumulatorC.Proofs.NarrowingWarnings
import AccumulatorC.Proofs.Program.Parser.Soundness
import AccumulatorC.Proofs.ReportedPlaces
import AccumulatorC.Proofs.StepOperands

/-!
# String data

A string literal is decoded when the source is cut into tokens and written again as data between
quotes, in one line of the assembly. Nothing is lost on the way: what is read from the line are the
bytes that the literal denotes and one zero. Every string literal of a compiled program has such a
line, since no declaration and no statement is left out that can hold one.
-/

namespace AccumulatorC

open Lowering

/-! ## Literals in what is lowered -/

/-- A string is mentioned as often as its literal is written. -/
theorem count_mentions (bytes : List UInt8) (tokens : List Token) :
    (mentions tokens).count (.text bytes) = tokens.count (.string bytes) := by
  induction tokens with
  | nil => rfl
  | cons token rest ih =>
      cases token with
      | string other => rw [mentions_string, List.count_cons, List.count_cons, ih]; simp
      | identifier name =>
          rw [List.count_cons_of_ne (by simp)]
          -- A name mentions a call or nothing, by what follows it, so no text in any case.
          by_cases hcall : rest.head? = some (.mark .openParen)
          · obtain ⟨more, rfl⟩ := List.head?_eq_some_iff.mp hcall
            rw [mentions_quiet rfl] at ih
            rw [mentions_call, List.count_cons_of_ne (by simp), ih]
          · rw [mentions_identifier hcall, ih]
      | _ => rw [mentions_quiet rfl, List.count_cons_of_ne (by simp), ih]

theorem Line.mention?_eq_text {line : Line} {bytes : List UInt8} :
    line.mention? = some (.text bytes) ↔ line = .data (.text bytes) := by
  cases line with
  | label l => simp [mention?]
  | instr i => cases i <;> simp [mention?]
  | data d => cases d <;> simp [mention?]

theorem count_shown (bytes : List UInt8) (code : List Line) :
    (shown code).count (.text bytes) = code.count (.data (.text bytes)) := by
  rw [shown, List.count_filterMap, List.count_eq_countP]
  apply List.countP_congr
  intro line _
  rw [beq_iff_eq, beq_iff_eq]
  exact Line.mention?_eq_text

/-- The code of an item stores every string literal in it, at least as often as it is written. -/
def Item.Keeps (item : Item) (code : List Line) : Prop :=
  ∀ bytes, item.written.count (.text bytes) ≤ code.count (.data (.text bytes))

/-- A function stores its string literals, and once more those in the operands of steps. -/
theorem Function.Repeats.keeps {function : Function} {code : List Line}
    (h : function.Repeats code) : (Item.function function).Keeps code := by
  intro bytes
  rw [← count_shown, h.perm.count_eq, List.count_append, Item.written,
    List.count_cons_of_ne (by simp)]
  exact Nat.le_add_right _ _

/-- What is built from numbers has no string literal in it. -/
theorem Expr.Numeric.written_eq_nil {e : Expr} (h : e.Numeric) : e.written = [] := by
  induction h with
  | number => rfl
  | plus _ _ _ ih => exact ih
  | negate _ _ _ ih => exact ih
  | binary _ _ _ _ ihleft ihright => rw [Expr.written, ihleft, ihright]; rfl

/-- The initial value of a variable that has one is stored with it. -/
def Declaration.OwnsInitial (declared : Declaration) : Prop :=
  declared.initial ≠ none → declared.symbol.storage ≠ .external

/-- A variable has no string literal in its initial value but the value itself, which is stored in
front of it. -/
theorem Declaration.Stores.written_eq {declared : Declaration} {strings : Nat} {front : List Line}
    {data : Data} (h : declared.Stores strings front data)
    (hnumeric : ∀ value, declared.initial = some value → value.isString = false →
      value.written = []) :
    shown (front ++ (declared.head ++ [.data data])) = (Item.global declared).written := by
  cases h with
  | nothing hnone => rw [Item.written, hnone]; rfl
  | string hstring => rw [Item.written, hstring]; rfl
  | byte hvalue hstring => rw [Item.written, hvalue]; exact (hnumeric _ hvalue hstring).symm
  | word hvalue hstring => rw [Item.written, hvalue]; exact (hnumeric _ hvalue hstring).symm

theorem Declaration.lowerGlobal_keeps {declared : Declaration} (howns : declared.OwnsInitial)
    (hnumeric : ∀ value, declared.initial = some value → value.isString = false →
      value.written = []) (state : LowerState) :
    Ensures declared.lowerGlobal state fun _ code _ => (Item.global declared).Keeps code := by
  refine (declared.lowerGlobal_code state).mono ?_
  rintro _ code _ ⟨-, hown⟩ bytes
  by_cases hexternal : declared.symbol.storage = .external
  · have hnone : declared.initial = none := by
      by_contra hsome
      exact howns hsome hexternal
    rw [Item.written, hnone]
    exact Nat.zero_le _
  · obtain ⟨front, data, rfl, hstores⟩ := hown hexternal
    rw [← count_shown, hstores.written_eq hnumeric]

/-! ## Declarations that are read -/

/-- A variable that is defined elsewhere is read without an initial value. -/
theorem Variable.Elaborates.ownsInitial {given after : Parser.Setting} {declared : Variable}
    {d : Declaration} {warnings : List Conversion} (h : declared.Elaborates given d after warnings) :
    d.OwnsInitial := by
  cases h with
  | plain => exact fun hsome => absurd rfl hsome
  | initial _ _ _ hdeclare =>
      intro _ hexternal
      obtain ⟨_, _, _, _, _, hallot, rfl, _⟩ := Scopes.declare_eq_ok hdeclare
      rcases Scopes.allot_eq_ok hallot with ⟨hfalse, _⟩ | ⟨_, _, rfl, _⟩ | ⟨_, _, rfl, _⟩
      · cases hfalse
      · cases hexternal
      · cases hexternal

theorem Entry.AllElaborate.ownsInitial {scopes after : Scopes} {entries : List Entry}
    {items : List Item} {warnings : List Conversion}
    (h : AllElaborate scopes entries items after warnings) {d : Declaration}
    (hmem : .global d ∈ items) : d.OwnsInitial := by
  induction h with
  | nil => cases hmem
  | cons h _ ih =>
      rcases List.mem_cons.mp hmem with rfl | hmem
      · cases h with
        | global h => exact h.ownsInitial
      · exact ih hmem

theorem Program.ofTokens_ownsInitial {tokens : List (Located Token)} {parsed : Parsed}
    (h : Program.ofTokens tokens = .ok parsed) {declared : Declaration}
    (hmem : .global declared ∈ parsed.program.items) : declared.OwnsInitial := by
  obtain ⟨_, -, helaborates, -⟩ := Program.ofTokens_source h
  have hunplaced := helaborates.ownsInitial
    (List.mem_map.mpr ⟨_, hmem, rfl⟩ : Item.global declared.unplaced ∈ parsed.program.unplaced.items)
  intro hsome
  exact hunplaced fun hnone => hsome (Option.map_eq_none_iff.mp hnone)

/-! ## Programs -/

/-- The code of a program keeps the strings of its items. -/
theorem Program.WellFormed.items_keep {program : Program} (h : program.WellFormed)
    (howns : ∀ declared, .global declared ∈ program.items → declared.OwnsInitial)
    {lines : List Line} (hlines : program.lines = .ok lines) :
    ∃ codes, lines = startLines ++ (codes.flatten ++ [.label .heap]) ∧
      List.Forall₂ Item.Keeps program.items codes := by
  obtain ⟨codes, after, hcodes, hparts⟩ := Program.lines_parts hlines
  refine ⟨codes, hparts, hcodes.forall₂ (fun _ => True) _ trivial ?_⟩
  intro item hmem state _
  cases item with
  | global declared =>
      refine (Declaration.lowerGlobal_keeps (howns declared hmem) ?_ state).mono
        fun _ _ _ hkeeps => ⟨trivial, hkeeps⟩
      intro value hvalue hstring
      obtain ⟨hwf, -, hinitializer⟩ := h.globals declared value hmem hvalue
      exact (hwf.numeric (Bool.and_eq_true_iff.mp hinitializer).1 hstring).written_eq_nil
  | function defined =>
      exact ((h.functions defined hmem).shown_lower h.scopes state).mono
        fun _ _ _ hshown => ⟨trivial, hshown.repeats.keeps⟩

/-- What every item keeps of its own tokens is kept of all. -/
theorem count_le_of_keeps {spans : List (List Token)} {items : List Item}
    {codes : List (List Line)} (bytes : List UInt8)
    (hspans : List.Forall₂ (fun span item => mentions span = item.written) spans items)
    (hcodes : List.Forall₂ Item.Keeps items codes) :
    spans.flatten.count (.string bytes) ≤ codes.flatten.count (.data (.text bytes)) := by
  induction hspans generalizing codes with
  | nil => exact Nat.zero_le _
  | cons hspan _ ih =>
      cases hcodes with
      | cons hcode hcodes =>
          have hfirst := hcode bytes
          rw [← hspan, count_mentions] at hfirst
          rw [List.flatten_cons, List.flatten_cons, List.count_append, List.count_append]
          exact Nat.add_le_add hfirst (ih hcodes)

/-- The lines of a program store every string literal among its tokens, at least as often as it
stands there. -/
theorem Program.count_string_le {tokens : List (Located Token)} {parsed : Parsed}
    {lines : List Line} (hparsed : Program.ofTokens tokens = .ok parsed)
    (hlines : parsed.program.lines = .ok lines) (bytes : List UInt8) :
    (tokens.map (·.value)).count (.string bytes) ≤ lines.count (.data (.text bytes)) := by
  obtain ⟨spans, hspans, hwritten⟩ := (Program.ofTokens_written hparsed).1
  obtain ⟨codes, rfl, hkeeps⟩ := (Program.ofTokens_wellFormed hparsed).items_keep
    (fun _ => Program.ofTokens_ownsInitial hparsed) hlines
  rw [hspans, List.count_append, List.count_append]
  have hcount := count_le_of_keeps bytes hwritten hkeeps
  omega

/-! ## From the source to the output -/

/-- At a place in one of the sources of an input stands a literal between quotes that denotes some
bytes. -/
def Input.HasLiteral (tree : FileTree) (input : Input) (location : Location) (bytes : List UInt8) :
    Prop :=
  ∃ owner reading chars text, input.Reads tree owner reading ∧
    reading.characters = chars.map some ∧
    location.textIn chars = '"' :: (text ++ ['"']) ∧ LiteralText '"' text bytes

/-- A string token denotes the bytes of a literal at its place. -/
theorem Input.hasLiteral_of_mem {tree : FileTree} {input : Input} {tokens : List (Located Token)}
    (h : input.tokens tree = .ok tokens) {token : Located Token} (hmem : token ∈ tokens)
    {bytes : List UInt8} (hvalue : token.value = .string bytes) :
    input.HasLiteral tree token.location bytes := by
  obtain ⟨list, rfl, hsources⟩ := Input.exists_sources_of_tokens h
  obtain ⟨source, hsource, rfl⟩ := List.mem_map.mp hmem
  obtain ⟨reading, own, hreads, hown, hsublist⟩ := hsources source hsource
  obtain ⟨name, content, rfl⟩ := hreads.exists_bytes
  obtain ⟨texts, chars, hcovered⟩ := Reading.covered_by_tokens name content hown
  have hstands := hcovered.stands source.token (hsublist.subset (token_mem_tokensOf hsource))
  have hspelling := hstands.spelling
  rw [hvalue] at hspelling
  generalize htext : source.token.location.textIn chars = text at hspelling
  cases hspelling with
  | string hliteral => exact ⟨_, _, chars, _, hreads, hcovered.characters, htext, hliteral⟩

/-- The line of a string stands in the text of a program as one line of its own. -/
theorem Assembly.text_string {assembly : Assembly} {front back : List Line} {bytes : List UInt8}
    (h : assembly.lines = front ++ .data (.text bytes) :: back) : ∃ before after : List Char,
      assembly.text.toList = before ++ (stringLine bytes ++ '\n' :: after) ∧
        before.getLast? = some '\n' := by
  obtain ⟨before, after, htext, hbefore⟩ := Assembly.text_line h
  rw [toList_text_string, List.append_assoc] at htext
  exact ⟨before, after, htext, hbefore⟩

/-- String data is escaped without loss. Whatever bytes are written, they are read again from left to
right, and between the quotes of their line with one zero behind them; the line is one line of
printable characters, and no quote in it but the last is without a backslash. So the bytes that a
string literal of a source denotes stand in such a line of the output, once at least for every time
that the source has the literal. -/
theorem Input.strings_stored {tree : FileTree} {options : Options} {input : Input}
    {compiled : Compiled} (h : input.compile tree options = .ok compiled) :
    (∀ bytes : List UInt8, readData (escapeBytes bytes).toList = (bytes, []) ∧
      (∀ c ∈ (escapeBytes bytes).toList, IsPrintable c) ∧
      (∀ rest, readData ((escapeBytes bytes).toList ++ (['\\', '0', '"'] ++ rest)) =
        (bytes ++ [0], '"' :: rest)) ∧
      '\n' ∉ stringLine bytes) ∧
    (∀ text bytes, LiteralText '"' text bytes → ∀ after, Lexeme.read '"' (text ++ ['"'] ++ after) =
      .token (.string bytes) (text ++ ['"']).length) ∧
    ∃ tokens, input.tokens tree = .ok tokens ∧
      (∀ token ∈ tokens, ∀ bytes, token.value = .string bytes →
        input.HasLiteral tree token.location bytes) ∧
      ∀ bytes, (tokens.map (·.value)).count (.string bytes) ≤
          compiled.assembly.lines.count (.data (.text bytes)) ∧
        ∀ front back, compiled.assembly.lines = front ++ .data (.text bytes) :: back →
          ∃ before after : List Char,
            compiled.assembly.text.toList = before ++ (stringLine bytes ++ '\n' :: after) ∧
              before.getLast? = some '\n' := by
  rw [Input.compile_eq] at h
  obtain ⟨tokens, parsed, htokens, hparsed, hlines⟩ := compileTokens_eq_ok (compileTokens_of_sources h)
  exact ⟨escapeBytes_lossless, fun _ _ htext _ => Lexeme.read_string htext, tokens, htokens,
    fun token hmem bytes => Input.hasLiteral_of_mem htokens hmem, fun bytes =>
    ⟨Program.count_string_le hparsed hlines bytes, fun front back => Assembly.text_string⟩⟩

/-! ## A program with quotes in its strings -/

/-- A text with a string literal that starts a variable, with quotes, a zero before digits and the
end of a line in it, and with one in a function, with a backslash before a letter. -/
def quotingText : String :=
  "char* g = \"say \\\"hi\\\"\\0001\\n\";\nchar main() \x7b char* p = \"\\\\n\"; return *p; \x7d\n"

/-- What is compiled from it. -/
def quoting : Compiled :=
  (FileTree.bare.compileText .default quotingText).toOption.getD ⟨⟨none, 0, []⟩, []⟩

/-- A program with quotes in its strings compiles, and what its data lines read as are the
strings. -/
theorem quoting_strings_stored :
    (Input.text quotingText).compile FileTree.bare .default = .ok quoting ∧
    (∀ bytes : List UInt8, readData (escapeBytes bytes).toList = (bytes, []) ∧
      (∀ c ∈ (escapeBytes bytes).toList, IsPrintable c) ∧
      (∀ rest, readData ((escapeBytes bytes).toList ++ (['\\', '0', '"'] ++ rest)) =
        (bytes ++ [0], '"' :: rest)) ∧
      '\n' ∉ stringLine bytes) ∧
    (∀ text bytes, LiteralText '"' text bytes → ∀ after, Lexeme.read '"' (text ++ ['"'] ++ after) =
      .token (.string bytes) (text ++ ['"']).length) ∧
    ∃ tokens, (Input.text quotingText).tokens FileTree.bare = .ok tokens ∧
      (∀ token ∈ tokens, ∀ bytes, token.value = .string bytes →
        (Input.text quotingText).HasLiteral FileTree.bare token.location bytes) ∧
      ∀ bytes, (tokens.map (·.value)).count (.string bytes) ≤
          quoting.assembly.lines.count (.data (.text bytes)) ∧
        ∀ front back, quoting.assembly.lines = front ++ .data (.text bytes) :: back →
          ∃ before after : List Char,
            quoting.assembly.text.toList = before ++ (stringLine bytes ++ '\n' :: after) ∧
              before.getLast? = some '\n' := by
  have hcompiled : (Input.text quotingText).compile FileTree.bare .default = .ok quoting :=
    eq_ok_of_isOk (by decide +kernel) _
  exact ⟨hcompiled, Input.strings_stored hcompiled⟩

/-- The bytes of both literals in the output. -/
example : quoting.assembly.lines.filterMap Line.mention? =
    [.call "main", .text [115, 97, 121, 32, 34, 104, 105, 34, 0, 48, 48, 49, 10], .text [92, 110]] ∧
    stringLine [34, 104, 105, 34, 0, 48, 48, 49, 10] =
      "\t#d      \"\\\"hi\\\"\\0001\\n\\0\"".toList := by
  decide +kernel

end AccumulatorC
