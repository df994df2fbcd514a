import AccumulatorC.Files.Tree
import AccumulatorC.Token

/-!
# Lexemes

What a line of text begins with: a token, a blank, a comment or something that is
no token. Every token ends on its line, so the rest of the line is all that has
to be seen, and each token is the longest one that begins there.
-/

namespace AccumulatorC

/-- What can be wrong with the text of a program. -/
inductive LexError
  | unreadableLine
  | badCharacter (c : Char)
  | expected (c : Char)
  | integerOverflow
  | missingHexDigits
  | unterminatedLiteral
  | unterminatedComment
  | emptyCharacter
  | unknownEscape (c : Char)
  | unknownDirective (name : String)
  | missingInclusionPath
  | inclusion (path : Path) (cause : FileError)
  deriving DecidableEq, Repr

/-- The text of a lexical error. -/
def LexError.message : LexError → String
  | .unreadableLine => "I/O error"
  | .badCharacter c => s!"Bad character {quoteCharacter c} in input stream"
  | .expected c => s!"Expected {quoteCharacter c}"
  | .integerOverflow => "Integer literal overflow, valid range is [0, 65535]"
  | .missingHexDigits => "Expected hexadecimal digits after `0x`"
  | .unterminatedLiteral => "Unterminated literal"
  | .unterminatedComment => "Unterminated block comment"
  | .emptyCharacter => "Empty character literal"
  | .unknownEscape c => "Unknown escape sequence `\\" ++ c.toString ++ "`"
  | .unknownDirective name => s!"Unknown directive `#{name}`"
  | .missingInclusionPath => "Expected a quoted path after `#include`"
  | .inclusion path cause => s!"Cannot include `{path.text}`: {cause.message}"

/-- What text begins with. A token says how many characters it takes after the
first one. -/
inductive Lexeme
  | token (token : Token) (more : Nat)
  | blank
  | lineComment
  | blockComment
  | error (cause : LexError)
  deriving DecidableEq, Repr

namespace Lexeme

/-- The characters that separate tokens and mean nothing else. -/
def isBlank (c : Char) : Bool :=
  c = ' ' || c = '\t' || c = '\n' || c = '\x0c' || c = '\r'

/-- The characters that begin a word. -/
def isWordStart (c : Char) : Bool := c.isAlpha || c = '_'

/-- The characters that continue a word. -/
def isWordPart (c : Char) : Bool := c.isAlphanum || c = '_'

/-- A hexadecimal digit in either case. -/
def isHexDigit (c : Char) : Bool :=
  c.isDigit || ('a' ≤ c && c ≤ 'f') || ('A' ≤ c && c ≤ 'F')

/-- The value of a hexadecimal digit. -/
def digitValue (c : Char) : Nat :=
  if c.isDigit then c.toNat - '0'.toNat
  else if 'a' ≤ c then c.toNat - 'a'.toNat + 10
  else c.toNat - 'A'.toNat + 10

/-- A product, unless it needs more than 32 bits. -/
def product? (a b : UInt32) : Option UInt32 :=
  if a.toNat * b.toNat < UInt32.size then some (a * b) else none

/-- A sum, unless it needs more than 32 bits. -/
def sum? (a b : UInt32) : Option UInt32 :=
  if a.toNat + b.toNat < UInt32.size then some (a + b) else none

/-- The largest integer of a program. -/
def largestInteger : UInt32 := 65535

/-- Adds a digit to a number, unless it gets too large. -/
def accumulate (base value digit : UInt32) : Except LexError UInt32 :=
  match (product? value base).bind (sum? · digit) with
  | some next => if next ≤ largestInteger then .ok next else .error .integerOverflow
  | none => .error .integerOverflow

/-- Adds digits to a number one after the other. -/
def accumulateAll (base value : UInt32) (digits : List Char) : Except LexError UInt32 :=
  digits.foldlM (fun value digit => accumulate base value (digitValue digit).toUInt32) value

/-- An integer token of digits. -/
def integer (base : UInt32) (digits : List Char) (more : Nat) : Lexeme :=
  match accumulateAll base 0 digits with
  | .ok value => .token (.integer value.toUInt16) more
  | .error cause => .error cause

/-- The byte of a character that the target machine knows. -/
def byte? (c : Char) : Option UInt8 :=
  if c.toNat < 128 then some (UInt8.ofNat c.toNat) else none

/-- The byte that a character denotes after a backslash. -/
def escape? (c : Char) : Option UInt8 :=
  match c with
  | 'n' => some 10
  | 't' => some 9
  | 'r' => some 13
  | '0' => some 0
  | '\\' => some 92
  | '\'' => some 39
  | '"' => some 34
  | _ => none

/-- A character literal whose value is known; only its closing quote is missing. -/
def closeCharacter (byte : UInt8) (more : Nat) : List Char → Lexeme
  | '\'' :: _ => .token (.character byte) more
  | _ => .error (.expected '\'')

/-- A character literal after its opening quote. -/
def character : List Char → Lexeme
  | [] => .error .unterminatedLiteral
  | '\'' :: _ => .error .emptyCharacter
  | '\n' :: _ => .error .unterminatedLiteral
  | ['\\'] => .error .unterminatedLiteral
  | '\\' :: c :: rest =>
      match escape? c with
      | some byte => closeCharacter byte 3 rest
      | none => .error (.unknownEscape c)
  | c :: rest =>
      match byte? c with
      | some byte => closeCharacter byte 2 rest
      | none => .error (.badCharacter c)

/-- The bytes of a string literal after its opening quote, and the number of
characters up to and with the closing quote. -/
def stringBytes : List Char → Except LexError (List UInt8 × Nat)
  | [] => .error .unterminatedLiteral
  | '"' :: _ => .ok ([], 1)
  | '\n' :: _ => .error .unterminatedLiteral
  | ['\\'] => .error .unterminatedLiteral
  | '\\' :: c :: rest =>
      match escape? c with
      | some byte => (stringBytes rest).map fun (bytes, count) => (byte :: bytes, count + 2)
      | none => .error (.unknownEscape c)
  | c :: rest =>
      match byte? c with
      | some byte => (stringBytes rest).map fun (bytes, count) => (byte :: bytes, count + 1)
      | none => .error (.badCharacter c)

/-- A string literal after its opening quote. -/
def string (rest : List Char) : Lexeme :=
  match stringBytes rest with
  | .ok (bytes, count) => .token (.string bytes) count
  | .error cause => .error cause

/-- A directive after its sign. -/
def directive (rest : List Char) : Lexeme :=
  let name := rest.takeWhile Char.isAlpha
  if name = "include".toList then .token .inclusion name.length
  else .error (.unknownDirective (String.ofList name))

/-- A number with its first digit. -/
def number (first : Char) (rest : List Char) : Lexeme :=
  match first, rest with
  | '0', 'x' :: rest | '0', 'X' :: rest =>
      let digits := rest.takeWhile isHexDigit
      if digits = [] then .error .missingHexDigits
      else integer 16 digits (digits.length + 1)
  | _, _ =>
      let digits := rest.takeWhile Char.isDigit
      integer 10 (first :: digits) digits.length

/-- A word with its first character: a keyword or an identifier. -/
def word (first : Char) (rest : List Char) : Lexeme :=
  let part := rest.takeWhile isWordPart
  let name := String.ofList (first :: part)
  match Keyword.ofText? name with
  | some keyword => .token (.keyword keyword) part.length
  | none => .token (.identifier name) part.length

/-- A mark of one character, or the longer one that begins with it when the next
character completes it. -/
def markOr (short : Mark) (rest : List Char) (longer : List (Char × Mark)) : Lexeme :=
  match rest with
  | next :: _ =>
      match longer.lookup next with
      | some long => .token (.mark long) 1
      | none => .token (.mark short) 0
  | [] => .token (.mark short) 0

/-- What text begins with, given its first character. -/
def read (first : Char) (rest : List Char) : Lexeme :=
  if isBlank first then .blank
  else if isWordStart first then word first rest
  else if first.isDigit then number first rest
  else match first with
    | ',' => .token (.mark .comma) 0
    | ';' => .token (.mark .semicolon) 0
    | '(' => .token (.mark .openParen) 0
    | ')' => .token (.mark .closeParen) 0
    | '{' => .token (.mark .openBrace) 0
    | '}' => .token (.mark .closeBrace) 0
    | '*' => .token (.mark .star) 0
    | '&' => .token (.mark .ampersand) 0
    | '|' => .token (.mark .bar) 0
    | '=' => markOr .assign rest [('=', .equal)]
    | '<' => markOr .less rest [('=', .lessOrEqual), ('<', .shiftLeft)]
    | '>' => markOr .greater rest [('=', .greaterOrEqual), ('>', .shiftRight)]
    | '+' => markOr .plus rest [('+', .increment)]
    | '-' => markOr .minus rest [('-', .decrement)]
    | '!' =>
        match rest with
        | '=' :: _ => .token (.mark .notEqual) 1
        | _ => .error (.expected '=')
    | '/' =>
        match rest with
        | '/' :: _ => .lineComment
        | '*' :: _ => .blockComment
        | _ => .token (.mark .slash) 0
    | '\'' => character rest
    | '"' => string rest
    | '#' => directive rest
    | c => .error (.badCharacter c)

end Lexeme

end AccumulatorC
