import AccumulatorC.Text.Quoted

/-!
# Tokens

The words of the language. Literals are already resolved to their values; marks
and keywords are told apart by what they are and carry no text.
-/

namespace AccumulatorC

/-- A word with a meaning of its own. -/
inductive Keyword
  | voidType
  | charType
  | intType
  | external
  | returning
  | ifThen
  | elseThen
  | whileLoop
  deriving DecidableEq, Repr

namespace Keyword

/-- Every keyword. -/
def all : List Keyword :=
  [voidType, charType, intType, external, returning, ifThen, elseThen, whileLoop]

/-- How a keyword is written. -/
def text : Keyword → String
  | voidType => "void"
  | charType => "char"
  | intType => "int"
  | external => "extern"
  | returning => "return"
  | ifThen => "if"
  | elseThen => "else"
  | whileLoop => "while"

/-- The keyword that a word spells, if any. -/
def ofText? (word : String) : Option Keyword := all.find? (·.text = word)

/-- Whether a keyword names a type. -/
def isType : Keyword → Bool
  | voidType | charType | intType => true
  | _ => false

end Keyword

/-- Operators and punctuation. -/
inductive Mark
  | assign
  | comma
  | semicolon
  | openParen
  | closeParen
  | openBrace
  | closeBrace
  | plus
  | minus
  | star
  | slash
  | ampersand
  | bar
  | equal
  | notEqual
  | less
  | lessOrEqual
  | greater
  | greaterOrEqual
  | shiftLeft
  | shiftRight
  | increment
  | decrement
  deriving DecidableEq, Repr

/-- How a mark is written. -/
def Mark.text : Mark → String
  | .assign => "="
  | .comma => ","
  | .semicolon => ";"
  | .openParen => "("
  | .closeParen => ")"
  | .openBrace => "\x7b"
  | .closeBrace => "\x7d"
  | .plus => "+"
  | .minus => "-"
  | .star => "*"
  | .slash => "/"
  | .ampersand => "&"
  | .bar => "|"
  | .equal => "=="
  | .notEqual => "!="
  | .less => "<"
  | .lessOrEqual => "<="
  | .greater => ">"
  | .greaterOrEqual => ">="
  | .shiftLeft => "<<"
  | .shiftRight => ">>"
  | .increment => "++"
  | .decrement => "--"

/-- A token; `inclusion` is the directive that asks for another file. -/
inductive Token
  | identifier (name : String)
  | keyword (word : Keyword)
  | integer (value : UInt16)
  | character (byte : UInt8)
  | string (bytes : List UInt8)
  | inclusion
  | mark (m : Mark)
  deriving DecidableEq, Repr

/-- How a message names a token. -/
def Token.text : Token → String
  | .identifier name => s!"identifier `{name}`"
  | .keyword word => s!"keyword `{word.text}`"
  | .integer value => s!"literal `{value.toNat}`"
  | .character byte => "character literal " ++ quoteCharacter (Char.ofNat byte.toNat)
  | .string _ => "string literal"
  | .inclusion => "`#include`"
  | .mark m => s!"`{m.text}`"

end AccumulatorC
