import AccumulatorC.Text.Combining
import AccumulatorC.Text.Unprintable

/-!
# Quoted characters

A character inside a message is written between single quotes. The quote, the
backslash and four controls have escapes of their own; any other character that
would not show, or would attach itself to the quote, is written by its code
point in hexadecimal.
-/

namespace AccumulatorC

/-- Whether a code point lies in one of the ranges. -/
def inRanges (ranges : List (Nat × Nat)) (code : Nat) : Bool :=
  ranges.any fun range => range.1 ≤ code && code ≤ range.2

/-- Whether a character is visible when it stands alone in a line of text. -/
def standsAlone (c : Char) : Bool :=
  !inRanges combiningRanges c.toNat && !inRanges unprintableRanges c.toNat

/-- Lower case hexadecimal digits without leading zeros. -/
def hexText (n : Nat) : String := String.ofList (Nat.toDigits 16 n)

/-- The text of a character between quotes. -/
def escapeCharacter (c : Char) : String :=
  match c with
  | '\x00' => "\\0"
  | '\t' => "\\t"
  | '\r' => "\\r"
  | '\n' => "\\n"
  | '\\' => "\\\\"
  | '\'' => "\\'"
  | c => if standsAlone c then c.toString else "\\u\x7b" ++ hexText c.toNat ++ "\x7d"

/-- A character with its quotes. -/
def quoteCharacter (c : Char) : String := "'" ++ escapeCharacter c ++ "'"

end AccumulatorC
