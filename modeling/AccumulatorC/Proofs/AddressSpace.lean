import AccumulatorC.Proofs.CharacterStream
import AccumulatorC.Proofs.LexicalScoping
import AccumulatorC.Proofs.Lowering.Breaking
import AccumulatorC.Proofs.Program.Headroom
import AccumulatorC.Proofs.Program.Parser.Headroom
import AccumulatorC.Proofs.Token.Expanding
import AccumulatorC.Proofs.Token.Spaced

/-!
# Programs inside the address space

Compilation ends with assembly or with diagnostics, unless byte counts are added up that leave the
address space. That takes a source with as many tokens as the address space has bytes, and among
these sources there is one for which it happens. Otherwise only lines, columns or labels that are too
many for 32 bits break it down, and only a directory that is included keeps it from an end.
-/

namespace AccumulatorC

open Lowering

/-! ## How compilations end -/

/-- A stage that breaks down over byte counts at most, and then for a reason, is diagnosed
otherwise. -/
theorem Stop.diagnosed_or_overflow {ε : Type} (message : ε → String) (stop : Stop (Located ε))
    {reason : Prop} (h : ∀ cause, stop = .breakdown cause → cause = .overflow ∧ reason) :
    (∃ diagnostics, stop.diagnostics message = .diagnosis diagnostics ∧ 0 < diagnostics.count) ∨
      (stop.diagnostics message = .breakdown .overflow ∧ reason) := by
  cases stop with
  | diagnosis entry => exact .inl ⟨.errors [entry.rendered message], rfl, Nat.one_pos⟩
  | breakdown cause =>
      obtain ⟨rfl, hreason⟩ := h cause rfl
      exact .inr ⟨rfl, hreason⟩

/-- Errors in the tokens are diagnosed. -/
theorem compileTokens_errors (options : Options) {errors : List (Located LexError)}
    (h : errors ≠ []) : ∃ diagnostics,
      compileTokens options (.error errors) = .error (.diagnosis diagnostics) ∧
        0 < diagnostics.count := by
  refine ⟨.errors (errors.map (·.rendered LexError.message)), rfl, ?_⟩
  rw [Diagnostics.count, Diagnostics.errors, List.length_map]
  exact List.length_pos_iff.mpr h

/-- Tokens are compiled or refused with a diagnosis, unless byte counts leave the address space; and
they do not unless there are as many tokens as it has bytes. -/
theorem compileTokens_ends (options : Options) (tokens : List (Located Token)) :
    (∃ compiled, compileTokens options (.ok tokens) = .ok compiled) ∨
      (∃ diagnostics, compileTokens options (.ok tokens) = .error (.diagnosis diagnostics) ∧
        0 < diagnostics.count) ∨
      (compileTokens options (.ok tokens) = .error (.breakdown .overflow) ∧
        addressLimit ≤ tokens.length) := by
  cases hcompile : compileTokens options (.ok tokens) with
  | ok compiled => exact .inl ⟨compiled, rfl⟩
  | error stop =>
      right
      have hend : (∃ diagnostics, stop = .diagnosis diagnostics ∧ 0 < diagnostics.count) ∨
          (stop = .breakdown .overflow ∧ addressLimit ≤ tokens.length) := by
        obtain ⟨found, hparsed, rfl⟩ | ⟨parsed, found, hparsed, hlines, rfl⟩ :=
          compileTokens_eq_error hcompile
        · apply found.diagnosed_or_overflow
          rintro cause rfl
          exact Program.breakdown_of_ofTokens hparsed
        · apply found.diagnosed_or_overflow
          rintro cause rfl
          exact Program.breakdown_of_lines hparsed hlines
      obtain ⟨diagnostics, rfl, hcount⟩ | ⟨rfl, hlong⟩ := hend
      · exact .inl ⟨diagnostics, rfl, hcount⟩
      · exact .inr ⟨rfl, hlong⟩

namespace FileTree

/-- The ends of compiling a text, each with what it takes. -/
inductive TextEnds (tree : FileTree) (options : Options) (source : String) :
    Except (Stop Diagnostics) Compiled → Prop
  | compiled (compiled : Compiled) : TextEnds tree options source (.ok compiled)
  | diagnosed {diagnostics : Diagnostics} (hcount : 0 < diagnostics.count) :
      TextEnds tree options source (.error (.diagnosis diagnostics))
  /-- There are as many tokens as the address space has bytes. -/
  | overflow {tokens : List (Located Token)}
      (htokens : tree.textTokens "<input>" source.toUTF8 ⟨"."⟩ = .ok tokens)
      (hlong : addressLimit ≤ tokens.length) :
      TextEnds tree options source (.error (.breakdown .overflow))
  /-- The text, or a file that is included, has a gigabyte. -/
  | farPosition {bytes : ByteArray}
      (hread : bytes = source.toUTF8 ∨
        ∃ path ∈ (tree.expandText "<input>" source.toUTF8 ⟨"."⟩).2.opened, tree.read path = .ok bytes)
      (hlong : counterLimit ≤ 4 * bytes.size + 2) :
      TextEnds tree options source (.error (.breakdown .farPosition))
  /-- The assembly has a label with the last number of all. -/
  | labelOverflow {compiled : Compiled} {label : Label} {number : Nat}
      (hcompiled : compileTokens options (tree.textTokens "<input>" source.toUTF8 ⟨"."⟩) =
        .ok compiled)
      (hmem : .label label ∈ compiled.assembly.lines) (hnumber : label.number? = some number)
      (hlast : counterLimit ≤ number + 1) :
      TextEnds tree options source (.error (.breakdown .labelOverflow))
  /-- A directory is included. -/
  | endless {path : Path}
      (hmem : path ∈ (tree.expandText "<input>" source.toUTF8 ⟨"."⟩).2.opened)
      (hread : tree.read path = .error .isDirectory) :
      TextEnds tree options source (.error (.breakdown .endless))

/-- A source that breaks down when it is read has a gigabyte. -/
theorem obstacle?_reading {name : String} {bytes : ByteArray} {cause : Breakdown}
    (h : (Reading.ofBytes name bytes).obstacle? = some cause) :
    cause = .farPosition ∧ counterLimit ≤ 4 * bytes.size + 2 := by
  rw [Reading.obstacle?] at h
  cases hstream : (Reading.ofBytes name bytes).stream with
  | ok characters =>
      rw [hstream] at h
      cases h
  | error found =>
      rw [hstream] at h
      obtain rfl := Option.some.inj h
      refine ⟨Reading.streamFrom_eq_farPosition hstream, Nat.le_of_not_lt fun hsmall => ?_⟩
      cases hstream.symm.trans (Reading.stream_of_size hsmall)

/-- What keeps a path that is opened from being read to its end. -/
theorem obstacle?_eq_some {tree : FileTree} {path : Path} {cause : Breakdown}
    (h : tree.obstacle? path = some cause) :
    (cause = .endless ∧ tree.read path = .error .isDirectory) ∨
      ∃ bytes, cause = .farPosition ∧ tree.read path = .ok bytes ∧
        counterLimit ≤ 4 * bytes.size + 2 := by
  unfold obstacle? at h
  split at h
  next bytes hread =>
    obtain ⟨hcause, hlong⟩ := obstacle?_reading h
    exact .inr ⟨bytes, hcause, hread, hlong⟩
  next hread => exact .inl ⟨(Option.some.inj h).symm, hread⟩
  next => cases h

theorem textEnds_of_obstacle {tree : FileTree} {options : Options} {source : String}
    {cause : Breakdown} (h : tree.textObstacle? "<input>" source.toUTF8 ⟨"."⟩ = some cause) :
    tree.TextEnds options source (.error (.breakdown cause)) := by
  rw [textObstacle?, Option.or_eq_some_iff] at h
  rcases h with hown | ⟨-, hincluded⟩
  · obtain ⟨rfl, hlong⟩ := obstacle?_reading hown
    exact .farPosition (.inl rfl) hlong
  · obtain ⟨path, hmem, hpath⟩ := List.exists_of_findSome?_eq_some hincluded
    rw [List.mem_reverse] at hmem
    obtain ⟨rfl, hread⟩ | ⟨bytes, rfl, hread, hlong⟩ := obstacle?_eq_some hpath
    · exact .endless hmem hread
    · exact .farPosition (.inr ⟨path, hmem, hread⟩) hlong

/-- A program is delivered, unless one of its labels has the last number. -/
theorem textEnds_of_compiled {tree : FileTree} {options : Options} {source : String}
    {compiled : Compiled}
    (h : compileTokens options (tree.textTokens "<input>" source.toUTF8 ⟨"."⟩) = .ok compiled) :
    tree.TextEnds options source compiled.counted := by
  rw [Compiled.counted]
  split
  next => exact .compiled compiled
  next hcounted =>
    obtain ⟨line, hmem, hline⟩ : ∃ line ∈ compiled.assembly.lines, ¬ line.isCounted = true := by
      simpa using hcounted
    cases line with
    | instr | data => exact absurd rfl hline
    | label label =>
        cases hnumber : label.number? with
        | none =>
            rw [Line.isCounted, hnumber] at hline
            exact absurd rfl hline
        | some number =>
            rw [Line.isCounted, hnumber, Option.all_some, decide_eq_true_eq] at hline
            exact .labelOverflow h hmem hnumber (Nat.le_of_not_lt hline)

/-- Every text is compiled or refused with a diagnosis at least, or one of the bounds is exceeded: the
one of the address space, which takes as many tokens as it has bytes, or those of the counts that have
32 bits. Only a directory that is included keeps the compilation from an end. -/
theorem compileText_ends (tree : FileTree) (options : Options) (source : String) :
    tree.TextEnds options source (tree.compileText options source) := by
  rw [compileText]
  cases hobstacle : tree.textObstacle? "<input>" source.toUTF8 ⟨"."⟩ with
  | some cause => exact textEnds_of_obstacle hobstacle
  | none =>
      rw [compileSources]
      cases hcompiled : compileTokens options (tree.textTokens "<input>" source.toUTF8 ⟨"."⟩) with
      | ok compiled => exact textEnds_of_compiled hcompiled
      | error stop =>
          cases htokens : tree.textTokens "<input>" source.toUTF8 ⟨"."⟩ with
          | error errors =>
              obtain ⟨diagnostics, hdiagnosed, hcount⟩ :=
                compileTokens_errors options (Expansion.errors_ne_nil htokens)
              rw [htokens] at hcompiled
              cases hcompiled.symm.trans hdiagnosed
              exact .diagnosed hcount
          | ok tokens =>
              rw [htokens] at hcompiled
              rcases compileTokens_ends options tokens with
                ⟨compiled, h⟩ | ⟨diagnostics, h, hcount⟩ | ⟨h, hlong⟩
              · cases hcompiled.symm.trans h
              · cases hcompiled.symm.trans h
                exact .diagnosed hcount
              · cases hcompiled.symm.trans h
                exact .overflow htokens hlong

end FileTree

/-- Reading the directory that is included here comes to no end. -/
example : FileTree.bare.textObstacle? "<input>"
    "#include \".\"\nchar main() \x7b return 0; \x7d".toUTF8 ⟨"."⟩ = some .endless := by
  decide +kernel

/-! ## A local too far away -/

/-- The declarations of integers, and what comes after them. -/
theorem integers_elaborated {given after : Parser.Setting} {names : List String} {phrase : Phrase}
    {statements : List Statement} {warnings : List Conversion}
    (h : Phrase.AllElaborate given
      (names.map (fun name => .declaration (plainInteger name)) ++ [phrase]) statements after
        warnings) :
    ∃ (locals : List Statement) (last : Statement) (middle : Parser.Setting)
      (more : List Conversion), statements = locals ++ [last] ∧
        (∀ statement ∈ locals, ∃ symbol, statement = .declaration ⟨symbol, none⟩) ∧
        phrase.Elaborates middle last after more := by
  induction names generalizing given statements warnings with
  | nil =>
      cases h with
      | cons h hrest =>
          cases hrest with
          | nil => exact ⟨[], _, _, _, rfl, List.forall_mem_nil _, h⟩
  | cons name names ih =>
      cases h with
      | cons h hrest =>
          obtain ⟨locals, last, middle, more, rfl, hlocals, hlast⟩ := ih hrest
          cases h with
          | declaration h =>
              cases h with
              | plain hvalue hdeclare =>
                  refine ⟨_ :: locals, last, middle, more, rfl, ?_, hlast⟩
                  exact List.forall_mem_cons.mpr ⟨⟨_, rfl⟩, hlocals⟩

/-- Statements break down if the last one does, where only integers are declared before it. -/
theorem integers_break {frame : Frame} {given after : Parser.Setting} {names : List String}
    {phrase : Phrase} {statements : List Statement} {warnings : List Conversion}
    (h : Phrase.AllElaborate given
      (names.map (fun name => .declaration (plainInteger name)) ++ [phrase]) statements after
        warnings) {e : Expr} (hmem : e ∈ Statement.allNodes statements)
    (hlast : ∀ {middle : Parser.Setting} {last : Statement} {more : List Conversion},
      phrase.Elaborates middle last after more → e ∈ last.nodes → Breaks (last.lower frame)) :
    Breaks (lowerStatements frame statements) := by
  obtain ⟨locals, last, middle, more, rfl, hlocals, helaborates⟩ := integers_elaborated h
  apply Statement.breaks_of_last
  · intro statement hstatement
    obtain ⟨symbol, rfl⟩ := hlocals statement hstatement
    exact Statement.undiagnosed_of_plain symbol
  · -- The declarations have no expressions.
    obtain ⟨statement, hstatement, hnode⟩ := Statement.mem_allNodes.mp hmem
    rcases List.mem_append.mp hstatement with hlocal | hlocal
    · obtain ⟨symbol, rfl⟩ := hlocals statement hlocal
      cases hnode
    · obtain rfl := List.mem_singleton.mp hlocal
      exact hlast helaborates hnode

/-- Inside the blocks, the use of a place that is too far away breaks the lowering down. -/
theorem burrow_breaks {frame : Frame} {names : List String} {depth : Nat}
    {given after : Parser.Setting} {statement : Statement} {warnings : List Conversion}
    (h : (burrow names depth).Elaborates given statement after warnings) {e : Expr}
    {symbol : Symbol} {cause : Breakdown} (hmem : e ∈ statement.nodes)
    (hused : e.used? = some symbol)
    (hfar : frame.scopes.stackOffset symbol e.note.scope = .error cause) :
    Breaks (statement.lower frame) := by
  induction depth generalizing given statement after warnings with
  | zero =>
      cases h with
      | expression hterm =>
          cases hterm with
          | name =>
              obtain rfl := List.mem_singleton.mp hmem
              cases hused
              exact Statement.breaks_of_name hfar
  | succ depth ih =>
      cases h with
      | block henter hbody =>
          exact Statement.breaks_of_body (integers_break hbody hmem ih)

/-- So does the function around the blocks. -/
theorem burrowRoutine_breaks {f : Function} {scopes after : Scopes} {warnings : List Conversion}
    (h : burrowRoutine.Elaborates scopes f after warnings) {e : Expr} {symbol : Symbol}
    {cause : Breakdown} (hmem : e ∈ f.nodes) (hused : e.used? = some symbol)
    (hfar : after.stackOffset symbol e.note.scope = .error cause) : Breaks (f.lower after) := by
  cases h with
  | mk henter hparameters hreserve hdeclare hopen hbody =>
      apply Function.breaks_of_body
      exact @integers_break _ _ _ ["x"] _ _ _ hbody _ hmem fun hblocks hnode =>
        burrow_breaks hblocks hnode hused hfar

/-! ## Its text -/

/-- A word, a mark or a name, which are written in one way only. The name is short. -/
def Token.Simple : Token → Prop
  | .identifier name => (IsWord name ∧ Keyword.ofText? name = none) ∧ name.toList.length ≤ 8
  | .keyword _ => True
  | .mark _ => True
  | _ => False

/-- How simple tokens are written. -/
def Token.simpleText : Token → List Char
  | .identifier name => name.toList
  | .keyword word => word.text.toList
  | .mark m => m.text.toList
  | _ => []

/-- A simple token has a spelling of its own. -/
theorem Token.Simple.spelling {token : Token} (h : token.Simple) :
    token.Spelling token.simpleText := by
  cases token with
  | identifier name => exact .identifier h.1.1 h.1.2
  | keyword word => exact .keyword word
  | mark m => exact .mark m
  | _ => exact h.elim

/-- The texts of simple tokens have a common bound. -/
theorem Token.Simple.length_le {token : Token} (h : token.Simple) : token.simpleText.length ≤ 8 := by
  cases token with
  | identifier name => exact h.2
  | keyword word => cases word <;> decide
  | mark m => cases m <;> decide
  | _ => exact h.elim

theorem burrowName_simple {n : Nat} (hn : n ∈ List.range 512) :
    (Token.identifier ("y" ++ toString n)).Simple := by
  have hlist := toList_burrowName n
  refine ⟨⟨?_, ?_⟩, ?_⟩
  · refine ⟨'y', digits n, hlist, by decide, ?_⟩
    intro c hc
    rw [digits_eq] at hc
    have hdigit := Nat.isDigit_of_mem_toDigits (by decide) (by decide) hc
    simp [Lexeme.isWordPart, Char.isAlphanum, hdigit]
  · apply List.find?_eq_none.mpr
    intro word _ hword
    have hother : word.text.toList.head? ≠ some 'y' := by cases word <;> decide
    apply hother
    rw [of_decide_eq_true hword, hlist]
    rfl
  · have hshort : ∀ n ∈ List.range 512, (digits n).length ≤ 7 := by decide +kernel
    rw [hlist]
    exact Nat.succ_le_succ (hshort n hn)

theorem Phrase.writeAll_simple {phrases : List Phrase}
    (h : ∀ phrase ∈ phrases, ∀ token ∈ phrase.write, token.Simple) :
    ∀ token ∈ Phrase.writeAll phrases, token.Simple := by
  induction phrases with
  | nil => exact List.forall_mem_nil _
  | cons phrase phrases ih =>
      obtain ⟨hphrase, hrest⟩ := List.forall_mem_cons.mp h
      rw [Phrase.writeAll]
      exact List.forall_mem_append.mpr ⟨hphrase, ih hrest⟩

theorem plainInteger_simple {name : String} (h : (Token.identifier name).Simple) :
    ∀ token ∈ (Phrase.declaration (plainInteger name)).write, token.Simple :=
  List.forall_mem_cons.mpr ⟨trivial, List.forall_mem_cons.mpr
    ⟨h, List.forall_mem_singleton.mpr trivial⟩⟩

theorem x_simple : (Token.identifier "x").Simple :=
  ⟨⟨⟨'x', [], rfl, by decide, List.forall_mem_nil _⟩, by decide⟩, by decide⟩

theorem main_simple : (Token.identifier mainName).Simple :=
  ⟨⟨⟨'m', "ain".toList, rfl, by decide, List.all_iff_forall_prop.mp (by decide)⟩, by decide⟩,
    by decide⟩

/-- Nested blocks are written in simple tokens, however deep they are. -/
theorem burrow_simple {names : List String} (h : ∀ name ∈ names, (Token.identifier name).Simple)
    (depth : Nat) : ∀ token ∈ (burrow names depth).write, token.Simple := by
  induction depth with
  | zero =>
      exact List.forall_mem_cons.mpr ⟨x_simple, List.forall_mem_singleton.mpr trivial⟩
  | succ depth ih =>
      have hbody : ∀ token ∈ Phrase.writeAll
          (names.map (fun name => .declaration (plainInteger name)) ++ [burrow names depth]),
          token.Simple := by
        apply Phrase.writeAll_simple
        intro phrase hphrase
        rcases List.mem_append.mp hphrase with hphrase | hphrase
        · obtain ⟨name, hname, rfl⟩ := List.mem_map.mp hphrase
          exact plainInteger_simple (h name hname)
        · exact List.mem_singleton.mp hphrase ▸ ih
      rw [burrow, Phrase.write]
      exact List.forall_mem_cons.mpr ⟨trivial,
        List.forall_mem_append.mpr ⟨hbody, List.forall_mem_singleton.mpr trivial⟩⟩

theorem burrowRoutine_write : Entry.writeAll [.function burrowRoutine] =
    [.keyword .voidType, .identifier mainName, .mark .openParen, .mark .closeParen,
      .mark .openBrace] ++ Phrase.writeAll burrowRoutine.body ++ [.mark .closeBrace] := by
  simp [Entry.writeAll, Entry.write, Routine.write, burrowRoutine, Ty.write, Term.parenthesized,
    Term.commaSeparated]

/-- The whole function is written in simple tokens. -/
theorem burrowRoutine_simple :
    ∀ token ∈ Entry.writeAll [.function burrowRoutine], token.Simple := by
  have hnames : ∀ name ∈ burrowNames, (Token.identifier name).Simple :=
    List.forall_mem_map.mpr fun n hn => burrowName_simple hn
  have hbody : ∀ token ∈ Phrase.writeAll burrowRoutine.body, token.Simple := by
    apply Phrase.writeAll_simple
    exact List.forall_mem_cons.mpr ⟨plainInteger_simple x_simple,
      List.forall_mem_singleton.mpr (burrow_simple hnames 64)⟩
  rw [burrowRoutine_write]
  simp only [List.forall_mem_append, List.forall_mem_cons]
  exact ⟨⟨⟨trivial, main_simple, trivial, trivial, trivial, List.forall_mem_nil _⟩, hbody⟩, trivial,
    List.forall_mem_nil _⟩

/-- Its text, with blanks between the tokens. -/
def burrowText : String :=
  String.ofList (spaced ((Entry.writeAll [.function burrowRoutine]).map Token.simpleText))

/-! ### Its size -/

theorem plainInteger_length (name : String) :
    (Phrase.declaration (plainInteger name)).write.length = 3 := rfl

theorem plainIntegers_length (names : List String) (phrase : Phrase) :
    (Phrase.writeAll (names.map (fun name => .declaration (plainInteger name)) ++ [phrase])).length =
      3 * names.length + phrase.write.length := by
  induction names with
  | nil => simp [Phrase.writeAll]
  | cons name names ih =>
      rw [List.map_cons, List.cons_append, Phrase.writeAll, List.length_append, ih,
        plainInteger_length, List.length_cons]
      omega

theorem burrow_length (names : List String) (depth : Nat) :
    (burrow names depth).write.length = depth * (3 * names.length + 2) + 2 := by
  induction depth with
  | zero => simp [burrow, Phrase.write, Term.writeAlone, Term.write]
  | succ depth ih =>
      have hbody := plainIntegers_length names (burrow names depth)
      rw [burrow, Phrase.write, List.length_cons, List.length_append, List.length_singleton, hbody, ih,
        Nat.succ_mul depth]
      omega

theorem burrowRoutine_length : (Entry.writeAll [.function burrowRoutine]).length = 98443 := by
  have hnames : burrowNames.length = 512 := by
    rw [burrowNames, List.length_map, List.length_range]
  have hbody : burrowRoutine.body =
      ["x"].map (fun name => .declaration (plainInteger name)) ++ [burrow burrowNames 64] := by
    rw [burrowRoutine, List.map_singleton, List.singleton_append]
  rw [burrowRoutine_write, hbody, List.length_append, List.length_append, plainIntegers_length,
    burrow_length, hnames]
  simp only [List.length_cons, List.length_nil]

/-- Texts with blanks between them are not longer than all of them together. -/
theorem spaced_length_le {texts : List (List Char)} {limit : Nat}
    (h : ∀ text ∈ texts, text.length ≤ limit) :
    (spaced texts).length ≤ (limit + 1) * texts.length := by
  induction texts with
  | nil => exact Nat.le_refl _
  | cons text texts ih =>
      obtain ⟨htext, hrest⟩ := List.forall_mem_cons.mp h
      have hlater := ih hrest
      rw [spaced, List.flatMap_cons, ← spaced, List.length_append, List.length_append,
        List.length_singleton, List.length_cons, Nat.mul_succ]
      omega

/-- A character takes four bytes at most. -/
theorem encode_length_le (text : List Char) : (encode text).length ≤ 4 * text.length := by
  induction text with
  | nil => exact Nat.le_refl _
  | cons c rest ih =>
      have hc : (String.utf8EncodeChar c).length ≤ 4 := by
        rw [String.length_utf8EncodeChar]
        exact Char.utf8Size_le_four c
      rw [encode_cons, List.length_append, List.length_cons]
      omega

/-- The text is far below a gigabyte. -/
theorem burrowText_size : 4 * burrowText.toUTF8.size + 2 < counterLimit := by
  have hspaced : (spaced ((Entry.writeAll [.function burrowRoutine]).map Token.simpleText)).length ≤
      9 * 98443 := by
    have hle := spaced_length_le (List.forall_mem_map.mpr fun token hmem =>
      (burrowRoutine_simple token hmem).length_le)
    rwa [List.length_map, burrowRoutine_length] at hle
  have hbytes := encode_length_le burrowText.toList
  rw [toUTF8_eq_encode, List.size_toByteArray]
  rw [burrowText, String.toList_ofList] at hbytes ⊢
  rw [counterLimit]
  omega

/-- The text is read as its tokens, and opens no file. -/
theorem burrowText_tokens : ∃ tokens : List (Located Token),
    FileTree.bare.expandText "<input>" burrowText.toUTF8 ⟨"."⟩ = (⟨tokens, []⟩, ⟨[], []⟩) ∧
      tokens.map (·.value) = Entry.writeAll [.function burrowRoutine] := by
  apply FileTree.expandText_of_spaced
  · apply List.forall₂_map_right_iff.mpr
    apply List.forall₂_same.mpr
    exact fun token htoken => (burrowRoutine_simple token htoken).spelling
  · exact fun hmem => burrowRoutine_simple _ hmem

theorem burrow_hasMain {scopes : Scopes}
    (h : scopes.list[globalScope]? = some ⟨none, [burrowMain], 0⟩) : scopes.HasMain := by
  have hsurround : scopes.Surround (Surroundings.mk ⟨globalScope, [burrowMain]⟩ []).layers :=
    .outermost h
  have hlookup : scopes.lookup? globalScope mainName = some burrowMain :=
    hsurround.lookup?_eq mainName
  refine ⟨burrowMain, ?_, rfl⟩
  rw [Scopes.lookup, Scopes.get_eq_ok.mpr h, hlookup]
  rfl

/-- The program of the text is read, and byte counts leave the address space when it is lowered. -/
theorem burrowText_overflows :
    FileTree.bare.compileText .default burrowText = .error (.breakdown .overflow) := by
  obtain ⟨tokens, hexpands, hvalues⟩ := burrowText_tokens
  have htokens : FileTree.bare.textTokens "<input>" burrowText.toUTF8 ⟨"."⟩ = .ok tokens := by
    rw [FileTree.textTokens, hexpands]
    rfl
  have hobstacle : FileTree.bare.textObstacle? "<input>" burrowText.toUTF8 ⟨"."⟩ = none := by
    rw [FileTree.textObstacle?, hexpands, Reading.obstacle?, Reading.stream_of_size burrowText_size]
    rfl
  obtain ⟨f, after, helaborates, hglobal, ⟨e, he, hused, hnote⟩, hlarge⟩ := burrowRoutine_elaborates
  have hspelling : Entry.AllSpelling [.function burrowRoutine] (tokens.map (·.value)) :=
    hvalues ▸ .cons (.function burrowRoutine_spelling) .nil
  obtain ⟨parsed, hparsed, hprogram, -⟩ :=
    @Program.ofTokens_of_source tokens _ ⟨[.function f], after⟩ _ hspelling
      (.cons (.function helaborates) .nil) (burrow_hasMain hglobal)
  have hwf : (Program.mk [.function f] after).WellFormed :=
    hprogram ▸ Program.unplaced_wellFormed hparsed
  have hfar : after.stackOffset burrowX e.note.scope = .error .overflow := by
    have hnode : e ∈ (Program.mk [.function f] after).nodes :=
      List.mem_flatMap.mpr ⟨.function f, List.mem_singleton.mpr rfl, he⟩
    rw [Scopes.stackOffset_framed hwf.scopes ((hwf.node hnode).visible hused) rfl, hnote]
    exact if_neg (Nat.not_lt_of_le (Nat.le_trans hlarge (Nat.le_add_right _ _)))
  obtain ⟨cause, hrun⟩ :=
    (Program.breaks_of_function (burrowRoutine_breaks helaborates he hused hfar)).run_eq .initial
  have hlines : parsed.program.lines = .error (.breakdown cause) := by
    rw [← Program.lines_unplaced_eq_breakdown, hprogram, Program.lines, hrun]
    rfl
  obtain ⟨rfl, -⟩ := Program.breakdown_of_lines hparsed hlines
  rw [FileTree.compileText, hobstacle, htokens, compileSources, compileTokens, parseTokens, hparsed]
  simp only [hlines]
  rfl

end AccumulatorC
