import AccumulatorC.Text.Lines
import AccumulatorC.Token.Lexeme

/-!
# Cutting a source into tokens

Lines are cut one after the other. Only a block comment goes on from one line to
the next. An error gives up the rest of its line, and cutting goes on with the
next one; an unreadable line is an error as well and also gives up the line after
it.
-/

namespace AccumulatorC

/-- A token or an error, with its place. -/
abbrev LexItem := Except (Located LexError) (Located Token)

/-- How a line is entered. -/
inductive LineEntry
  /-- Tokens are expected. -/
  | fresh
  /-- A block comment is open. -/
  | comment
  /-- The line is given up. -/
  | recovering
  deriving DecidableEq, Repr

/-- What one line leaves to the next: how to enter it, and the place that was
last looked at for the start of a token, where the next unreadable line is
reported. -/
structure LexState where
  entry : LineEntry
  start : Location

/-- The number of characters up to and with the end of a block comment, if the
comment ends. -/
def commentLength? : List Char → Option Nat
  | '*' :: '/' :: _ => some 2
  | _ :: rest => (commentLength? rest).map (· + 1)
  | [] => none

/-- The place of text that begins with the character at a position and goes on for so
many of the characters that follow. -/
def spanFrom (source : Source) (p : Position) (text : List Char) (more : Nat) : Location :=
  .span (.cell source p) (.cell source (p.afterAll (text.take more)))

/-- Cuts a line, or what is left of it from a position on. -/
def cutLine (source : Source) (start : Location) (p : Position) :
    List Char → List LexItem × LexState
  | [] => ([], ⟨.fresh, start⟩)
  | first :: rest =>
      let here := Location.cell source p
      match Lexeme.read first rest with
      | .blank => cutLine source here (p.after first) rest
      | .token token more =>
          let taken := first :: rest.take more
          let (items, state) := cutLine source here (p.afterAll taken) (rest.drop more)
          (.ok ⟨token, spanFrom source p (first :: rest) more⟩ :: items, state)
      | .lineComment => ([], ⟨.fresh, here⟩)
      | .blockComment =>
          match commentLength? (rest.drop 1) with
          | some length =>
              let taken := first :: rest.take (length + 1)
              cutLine source here (p.afterAll taken) (rest.drop (length + 1))
          | none => ([], ⟨.comment, here⟩)
      | .error cause => ([.error ⟨cause, here⟩], ⟨.fresh, here⟩)
  termination_by text => text.length

/-- Cuts a whole line as it is entered. -/
def enterLine (source : Source) (number : Nat) (state : LexState) (line : List Char) :
    List LexItem × LexState :=
  match state.entry with
  | .fresh => cutLine source state.start ⟨number, 1⟩ line
  | .recovering => ([], ⟨.fresh, state.start⟩)
  | .comment =>
      match commentLength? line with
      | some length =>
          cutLine source state.start (Position.afterAll ⟨number, 1⟩ (line.take length))
            (line.drop length)
      | none => ([], state)

/-- Cuts lines one after the other, given the number of the first one; a comment that
is still open at the end is an error. -/
def cutLinesFrom (source : Source) (number : Nat) (state : LexState) :
    List (Option (List Char)) → List LexItem
  | [] => if state.entry = .comment then [.error ⟨.unterminatedComment, state.start⟩] else []
  | none :: rest =>
      .error ⟨.unreadableLine, state.start⟩ ::
        cutLinesFrom source (number + 1) ⟨.recovering, state.start⟩ rest
  | some line :: rest =>
      let (items, next) := enterLine source number state line
      items ++ cutLinesFrom source (number + 1) next rest

namespace Reading

/-- The tokens and errors of a source, in order. -/
def items (reading : Reading) : List LexItem :=
  cutLinesFrom reading.source 1 ⟨.fresh, reading.start⟩ reading.lines

/-- The tokens of a source, or all of its errors when there are any. -/
def tokens (reading : Reading) : Except (List (Located LexError)) (List (Located Token)) :=
  match reading.items.filterMap (fun | .error e => some e | .ok _ => none) with
  | [] => .ok (reading.items.filterMap fun | .ok t => some t | .error _ => none)
  | errors => .error errors

end Reading

end AccumulatorC
