import AccumulatorC.Proofs.Token.Separated

/-!
# Writing tokens and reading them

Every token that a program can hold is written in some way, a number even in several, and a text of
such writings is read as the tokens that it is written from, however blanks, newlines and comments
set the writings apart.
-/

namespace AccumulatorC

/-! ## How tokens are written -/

/-- The characters that stand behind a backslash for a byte of a literal. -/
def escapes : List (UInt8 × Char) :=
  [(34, '"'), (39, '\''), (92, '\\'), (10, 'n'), (9, 't'), (13, 'r'), (0, '0')]

/-- A byte of a literal: behind a backslash if it has an escape, and as its character otherwise. -/
def literalUnit (byte : UInt8) : List Char :=
  match escapes.lookup byte with
  | some c => ['\\', c]
  | none => [Char.ofNat byte.toNat]

/-- The texts that a token is written as: a number in decimal or in hexadecimal, and any other token
in one way. -/
def Token.writings : Token → List (List Char)
  | .identifier name => [name.toList]
  | .keyword word => [word.text.toList]
  | .integer value =>
      let digits := Nat.toDigits 16 value.toNat
      Nat.toDigits 10 value.toNat ::
        [digits, digits.map Char.toUpper].flatMap fun digits =>
          ['0' :: 'x' :: digits, '0' :: 'X' :: digits]
  | .character byte => ['\'' :: (literalUnit byte ++ ['\''])]
  | .string bytes => ['"' :: (bytes.flatMap literalUnit ++ ['"'])]
  | .inclusion => ["#include".toList]
  | .mark m => [m.text.toList]

/-- A token that a program can hold: a name is a word and no keyword, and literals are made of bytes
of the target machine. -/
def Token.Writable : Token → Prop
  | .identifier name => IsWord name ∧ Keyword.ofText? name = none
  | .character byte => byte < 128
  | .string bytes => ∀ byte ∈ bytes, byte < 128
  | _ => True

/-! ## Numbers -/

section Numbers

/-- The digits of a number denote it, if every single one denotes its value. -/
theorem numeral_toDigits {base : Nat} {write : Char → Char} (hbase : 1 < base)
    (hdigit : ∀ d < base, Lexeme.digitValue (write d.digitChar) = d) (n : Nat) :
    Lexeme.numeral base ((Nat.toDigits base n).map write) = n := by
  induction n using Nat.strongRecOn with
  | ind n ih =>
      by_cases hsmall : n < base
      · rw [Nat.toDigits_of_lt_base hsmall]
        simp [Lexeme.numeral, hdigit n hsmall]
      · have hle := Nat.le_of_not_lt hsmall
        have hrest := ih (n / base) (Nat.div_lt_self (by omega) hbase)
        rw [Lexeme.numeral] at hrest
        rw [Nat.toDigits_of_base_le hbase hle, Lexeme.numeral, List.map_append, List.foldl_append,
          hrest, List.map_singleton, List.foldl_cons, List.foldl_nil,
          hdigit _ (Nat.mod_lt n (by omega)), Nat.div_add_mod]

theorem exists_digit_of_mem {base : Nat} {c : Char} (hbase : 1 < base) {n : Nat}
    (h : c ∈ Nat.toDigits base n) : ∃ d < base, c = d.digitChar := by
  induction n using Nat.strongRecOn with
  | ind n ih =>
      by_cases hsmall : n < base
      · rw [Nat.toDigits_of_lt_base hsmall, List.mem_singleton] at h
        exact ⟨n, hsmall, h⟩
      · have hle := Nat.le_of_not_lt hsmall
        rw [Nat.toDigits_of_base_le hbase hle, List.mem_append, List.mem_singleton] at h
        rcases h with h | h
        · exact ih _ (Nat.div_lt_self (by omega) hbase) h
        · exact ⟨n % base, Nat.mod_lt n (by omega), h⟩

theorem spelling_decimal (value : UInt16) :
    (Token.integer value).Spelling (Nat.toDigits 10 value.toNat) := by
  have hnumeral : Lexeme.numeral 10 (Nat.toDigits 10 value.toNat) = value.toNat := by
    rw [← List.map_id (Nat.toDigits 10 value.toNat)]
    exact numeral_toDigits (by decide) (by decide) value.toNat
  have hfits : Lexeme.numeral 10 (Nat.toDigits 10 value.toNat) < 65536 := by
    rw [hnumeral]
    exact value.toNat_lt
  have hspelling := Token.Spelling.decimal Nat.toDigits_ne_nil
    (fun c hmem => Nat.isDigit_of_mem_toDigits (by decide) (by decide) hmem) hfits
  rwa [hnumeral, UInt16.ofNat_toNat] at hspelling

/-- Hexadecimal digits may be written in any way that keeps their values. -/
theorem spelling_hexadecimal {x : Char} {write : Char → Char} (hx : x = 'x' ∨ x = 'X')
    (hdigit : ∀ d < 16, Lexeme.isHexDigit (write d.digitChar) = true ∧
      Lexeme.digitValue (write d.digitChar) = d) (value : UInt16) :
    (Token.integer value).Spelling ('0' :: x :: (Nat.toDigits 16 value.toNat).map write) := by
  have hnumeral : Lexeme.numeral 16 ((Nat.toDigits 16 value.toNat).map write) = value.toNat :=
    numeral_toDigits (by decide) (fun d hd => (hdigit d hd).2) _
  have hdigits : ∀ c ∈ (Nat.toDigits 16 value.toNat).map write, Lexeme.isHexDigit c = true := by
    intro c hmem
    obtain ⟨digit, hdigits, rfl⟩ := List.mem_map.mp hmem
    obtain ⟨d, hd, rfl⟩ := exists_digit_of_mem (by decide) hdigits
    exact (hdigit d hd).1
  have hfits : Lexeme.numeral 16 ((Nat.toDigits 16 value.toNat).map write) < 65536 := by
    rw [hnumeral]
    exact value.toNat_lt
  have hspelling := Token.Spelling.hexadecimal hx (by simp [Nat.toDigits_ne_nil]) hdigits hfits
  rwa [hnumeral, UInt16.ofNat_toNat] at hspelling

end Numbers

/-! ## Literals -/

/-- Every byte below 128 has a spelling inside quotes. -/
theorem literalUnit_spells {quote : Char} (hquote : quote = '\'' ∨ quote = '"') {byte : UInt8}
    (hbyte : byte < 128) : LiteralUnit quote (literalUnit byte) byte := by
  unfold literalUnit
  split
  next c hc =>
    apply LiteralUnit.escaped
    obtain ⟨before, after, hsplit, -⟩ := List.lookup_eq_some_iff.mp hc
    have hall : ∀ pair ∈ escapes, Lexeme.escape? pair.2 = some pair.1 := by decide
    exact hall (byte, c) (by simp [hsplit])
  next hnone =>
    have hall : ∀ n < 128, escapes.lookup (UInt8.ofNat n) = none →
        (Char.ofNat n).toNat = n ∧ Char.ofNat n ≠ '\'' ∧ Char.ofNat n ≠ '"' ∧
          Char.ofNat n ≠ '\\' ∧ Char.ofNat n ≠ '\n' := by
      decide
    rw [← @UInt8.ofNat_toNat byte] at hnone
    obtain ⟨hvalue, hsingle, hdouble, hslash, hline⟩ := hall byte.toNat hbyte hnone
    have hplain : Char.ofNat byte.toNat ≠ quote := by rcases hquote with rfl | rfl <;> assumption
    have hunit := LiteralUnit.plain (hvalue.symm ▸ hbyte) hplain hslash hline
    rwa [hvalue, UInt8.ofNat_toNat] at hunit

theorem literalText_spells {quote : Char} (hquote : quote = '\'' ∨ quote = '"')
    {bytes : List UInt8} (h : ∀ byte ∈ bytes, byte < 128) :
    LiteralText quote (bytes.flatMap literalUnit) bytes := by
  induction bytes with
  | nil => exact .nil
  | cons byte bytes ih =>
      obtain ⟨hbyte, hbytes⟩ := List.forall_mem_cons.mp h
      rw [List.flatMap_cons]
      exact .cons (literalUnit_spells hquote hbyte) (ih hbytes)

/-- What a token is written as spells it. -/
theorem Token.Writable.spelling {token : Token} (h : token.Writable) :
    ∀ text ∈ token.writings, token.Spelling text := by
  cases token with
  | identifier name => exact List.forall_mem_singleton.mpr (.identifier h.1 h.2)
  | keyword word => exact List.forall_mem_singleton.mpr (.keyword word)
  | integer value =>
      have hlower : ∀ x, x = 'x' ∨ x = 'X' →
          (integer value).Spelling ('0' :: x :: Nat.toDigits 16 value.toNat) := by
        intro x hx
        rw [← List.map_id (Nat.toDigits 16 value.toNat)]
        exact spelling_hexadecimal hx (by decide) value
      have hupper : ∀ x, x = 'x' ∨ x = 'X' →
          (integer value).Spelling ('0' :: x :: (Nat.toDigits 16 value.toNat).map Char.toUpper) :=
        fun x hx => spelling_hexadecimal hx (by decide) value
      simp [writings, spelling_decimal, hlower, hupper]
  | character byte =>
      exact List.forall_mem_singleton.mpr (.character (literalUnit_spells (.inl rfl) h))
  | string bytes =>
      exact List.forall_mem_singleton.mpr (.string (literalText_spells (.inr rfl) h))
  | inclusion => exact List.forall_mem_singleton.mpr .inclusion
  | mark m => exact List.forall_mem_singleton.mpr (.mark m)

/-! ## The round trip -/

/-- Lexing undoes spelling. What a token is written as spells it, and every text in which spelled
tokens are set apart is read as exactly these tokens and without errors. -/
theorem Reading.tokens_of_written (name : String) :
    (∀ token : Token, token.Writable → ∀ text ∈ token.writings, token.Spelling text) ∧
    ∀ (tokens : List Token) (text : List Char), Separated tokens text →
      ∃ located : List (Located Token),
        (ofBytes name (String.ofList text).toUTF8).tokens = .ok located ∧
          located.map (·.value) = tokens := by
  constructor
  · intro token htoken
    exact htoken.spelling
  · intro tokens text htext
    exact tokens_of_separated name htext

/-- Tokens whose writings are easily mistaken for something else. -/
def mixedTokens : List Token :=
  [.identifier "whiles", .integer 255, .string [47, 42, 10, 34, 13], .mark .slash]

/-- The tokens with a comment, a line that ends in a carriage return, and a line comment between
them. -/
def mixedText : List Char :=
  "whiles /* \"**/0xFF\r\n// é\n\"/*\\n\\\"\\r\"\t/".toList

/-- The comments keep the tokens apart, and none of them is taken for a token. -/
theorem mixed_separated : Separated mixedTokens mixedText := by
  have hword : (Token.identifier "whiles").Writable :=
    ⟨⟨'w', "hiles".toList, rfl, by decide, List.all_iff_forall_prop.mp (by decide)⟩, by decide⟩
  have hstring : (Token.string [47, 42, 10, 34, 13]).Writable :=
    List.all_iff_forall_prop.mp (by decide)
  have hnumber : (Token.integer 255).Writable := trivial
  -- The text is put together from its end.
  have hslash : Separated [.mark .slash] "\t/".toList :=
    .token (.blank rfl .nil) (.mark .slash) .nil (.gap .nil)
  have hcomment : IsComment "// é\n".toList := @IsComment.line " é".toList (by decide)
  have hfar : IsGap "\r\n// é\n".toList := .blank rfl (.blank rfl (.comment hcomment .nil))
  have hquoted := Separated.token hfar (hstring.spelling _ List.mem_cons_self) (.blank rfl) hslash
  have hblock : IsComment "/* \"**/".toList := .block ⟨" \"*".toList, rfl, by decide⟩
  have hnear : IsGap " /* \"**/".toList := .blank rfl (.comment hblock .nil)
  have hnumbers :=
    Separated.token hnear (hnumber.spelling "0xFF".toList (by decide)) (.blank rfl) hquoted
  exact Separated.token .nil (hword.spelling _ List.mem_cons_self) (.blank rfl) hnumbers

/-- They are read as they are written. -/
theorem mixed_tokens : Separated mixedTokens mixedText ∧ ∃ located : List (Located Token),
    (Reading.ofBytes "<input>" (String.ofList mixedText).toUTF8).tokens = .ok located ∧
      located.map (·.value) = mixedTokens :=
  ⟨mixed_separated, (Reading.tokens_of_written "<input>").2 mixedTokens mixedText mixed_separated⟩

end AccumulatorC
