import Mathlib.Data.Bool.AllAny
import AccumulatorC.Proofs.Breakdown
import AccumulatorC.Proofs.Token.Numerals
import AccumulatorC.Proofs.Token.Words

/-!
# Tokens as they are written

A token has its spellings: a word is written as itself, a number by digits of base ten or sixteen, a
literal between quotes with every character as itself or behind a backslash, and a mark or an
inclusion in the one way there is. What a text begins with is read off as the longest spelling that
begins it.
-/

namespace AccumulatorC

/-! ## Spellings -/

/-- One character of a literal as it is written between quotes: itself, or what stands for it
behind a backslash. -/
inductive LiteralUnit (quote : Char) : List Char → UInt8 → Prop
  | plain {c : Char} (hascii : c.toNat < 128) (hquote : c ≠ quote) (hslash : c ≠ '\\')
      (hline : c ≠ '\n') : LiteralUnit quote [c] (UInt8.ofNat c.toNat)
  | escaped {c : Char} {byte : UInt8} (h : Lexeme.escape? c = some byte) :
      LiteralUnit quote ['\\', c] byte

/-- The characters of a literal as they are written between quotes. -/
inductive LiteralText (quote : Char) : List Char → List UInt8 → Prop
  | nil : LiteralText quote [] []
  | cons {unit text : List Char} {byte : UInt8} {bytes : List UInt8}
      (hunit : LiteralUnit quote unit byte) (htext : LiteralText quote text bytes) :
      LiteralText quote (unit ++ text) (byte :: bytes)

/-- The texts that a token can be written as. -/
inductive Token.Spelling : Token → List Char → Prop
  | identifier {name : String} (hword : IsWord name) (hfree : Keyword.ofText? name = none) :
      Spelling (.identifier name) name.toList
  | keyword (word : Keyword) : Spelling (.keyword word) word.text.toList
  | decimal {digits : List Char} (hne : digits ≠ []) (hdigits : ∀ c ∈ digits, c.isDigit = true)
      (hfits : Lexeme.numeral 10 digits < 65536) :
      Spelling (.integer (UInt16.ofNat (Lexeme.numeral 10 digits))) digits
  | hexadecimal {x : Char} {digits : List Char} (hx : x = 'x' ∨ x = 'X') (hne : digits ≠ [])
      (hdigits : ∀ c ∈ digits, Lexeme.isHexDigit c = true)
      (hfits : Lexeme.numeral 16 digits < 65536) :
      Spelling (.integer (UInt16.ofNat (Lexeme.numeral 16 digits))) ('0' :: x :: digits)
  | character {unit : List Char} {byte : UInt8} (hunit : LiteralUnit '\'' unit byte) :
      Spelling (.character byte) ('\'' :: (unit ++ ['\'']))
  | string {text : List Char} {bytes : List UInt8} (htext : LiteralText '"' text bytes) :
      Spelling (.string bytes) ('"' :: (text ++ ['"']))
  | inclusion : Spelling .inclusion "#include".toList
  | mark (m : Mark) : Spelling (.mark m) m.text.toList

/-! ## What is read is spelled -/

/-- The causes that are found in the characters of a line. -/
def LexError.InText (cause : LexError) : Prop :=
  cause ≠ .unreadableLine ∧ cause ≠ .unterminatedComment

/-- What a lexeme says of the text that it is read from: a token is spelled by the characters that
it takes, and anything else is seen from how the text begins. -/
def Lexeme.Describes (lexeme : Lexeme) (first : Char) (rest : List Char) : Prop :=
  match lexeme with
  | .token found more =>
      ∃ taken after, rest = taken ++ after ∧ taken.length = more ∧ found.Spelling (first :: taken)
  | .blank => isBlank first = true
  | .lineComment => first = '/' ∧ ∃ after, rest = '/' :: after
  | .blockComment => first = '/' ∧ ∃ after, rest = '*' :: after
  | .error cause => cause.InText

/-- Only the text of a keyword is one. -/
theorem Keyword.text_of_ofText? {name : String} {word : Keyword}
    (h : Keyword.ofText? name = some word) : word.text = name := by
  unfold Keyword.ofText? at h
  simpa using List.find?_some h

namespace Lexeme

variable {first : Char} {rest : List Char}

theorem Describes.error {cause : LexError} (hline : cause ≠ .unreadableLine)
    (hcomment : cause ≠ .unterminatedComment) : Describes (.error cause) first rest :=
  ⟨hline, hcomment⟩

theorem Describes.token {token : Token} {more : Nat} (taken after : List Char)
    (hrest : rest = taken ++ after) (hmore : taken.length = more)
    (hspelling : token.Spelling (first :: taken)) : Describes (.token token more) first rest :=
  ⟨taken, after, hrest, hmore, hspelling⟩

/-- A mark of one character. -/
theorem Describes.short {m : Mark} (hm : m.text.toList = [first]) :
    Describes (.token (.mark m) 0) first rest := by
  apply Describes.token [] rest rfl rfl
  rw [← hm]
  exact .mark m

/-- A mark of two characters. -/
theorem Describes.long {m : Mark} {second : Char} (hm : m.text.toList = [first, second]) :
    Describes (.token (.mark m) 1) first (second :: rest) := by
  apply Describes.token [second] rest rfl rfl
  rw [← hm]
  exact .mark m

theorem markOr_describes {short : Mark} {longer : List (Char × Mark)}
    (hshort : short.text.toList = [first])
    (hlonger : ∀ pair ∈ longer, pair.2.text.toList = [first, pair.1]) :
    (markOr short rest longer).Describes first rest := by
  unfold markOr
  split
  next second rest =>
    split
    next m hm =>
      obtain ⟨before, after, hlong, -⟩ := List.lookup_eq_some_iff.mp hm
      exact .long (hlonger (second, m) (by simp [hlong]))
    next => exact .short hshort
  next => exact .short hshort

theorem word_describes (hstart : isWordStart first = true) :
    (word first rest).Describes first rest := by
  have hrest : rest = rest.takeWhile isWordPart ++ rest.dropWhile isWordPart :=
    List.takeWhile_append_dropWhile.symm
  have hname : (String.ofList (first :: rest.takeWhile isWordPart)).toList =
      first :: rest.takeWhile isWordPart := String.toList_ofList
  unfold word
  simp only
  split
  next keyword hkeyword =>
    apply Describes.token _ _ hrest rfl
    rw [← hname, ← Keyword.text_of_ofText? hkeyword]
    exact .keyword keyword
  next hfree =>
    have hspelling := Token.Spelling.identifier
      ⟨first, _, hname, hstart, fun c => List.mem_takeWhile_imp⟩ hfree
    rw [hname] at hspelling
    exact .token _ _ hrest rfl hspelling

theorem integer_describes {base : UInt32} {digits : List Char} (hpos : 0 < base) (hbase : base ≤ 16)
    (hdigits : ∀ c ∈ digits, isHexDigit c = true) (taken after : List Char)
    (hrest : rest = taken ++ after)
    (hspelling : numeral base.toNat digits < 65536 →
      (Token.integer (UInt16.ofNat (numeral base.toNat digits))).Spelling (first :: taken)) :
    (integer base digits taken.length).Describes first rest := by
  rw [integer_eq hpos hbase hdigits]
  split
  next hfits => exact .token taken after hrest rfl (hspelling hfits)
  next => exact .error nofun nofun

theorem number_describes (hdigit : first.isDigit = true) :
    (number first rest).Describes first rest := by
  have hhexadecimal : ∀ x rest, (x = 'x' ∨ x = 'X') →
      Describes (if rest.takeWhile isHexDigit = [] then .error .missingHexDigits
        else integer 16 (rest.takeWhile isHexDigit)
          ((rest.takeWhile isHexDigit).length + 1)) '0' (x :: rest) := by
    intro x rest hx
    split
    next => exact .error nofun nofun
    next hne =>
      apply integer_describes (by decide) (by decide) (fun c => List.mem_takeWhile_imp)
        (x :: rest.takeWhile isHexDigit) (rest.dropWhile isHexDigit)
      · rw [List.cons_append, List.takeWhile_append_dropWhile]
      · exact .hexadecimal hx hne fun c => List.mem_takeWhile_imp
  unfold number
  split
  · exact hhexadecimal _ _ (.inl rfl)
  · exact hhexadecimal _ _ (.inr rfl)
  · have hdigits : ∀ c ∈ first :: rest.takeWhile Char.isDigit, c.isDigit = true :=
      List.forall_mem_cons.mpr ⟨hdigit, fun c => List.mem_takeWhile_imp⟩
    apply integer_describes (by decide) (by decide)
      (fun c hmem => isHexDigit_of_isDigit (hdigits c hmem))
      (rest.takeWhile Char.isDigit) (rest.dropWhile Char.isDigit)
    · exact List.takeWhile_append_dropWhile.symm
    · exact .decimal (List.cons_ne_nil _ _) hdigits

theorem byte?_eq_some {c : Char} {byte : UInt8} (h : byte? c = some byte) :
    c.toNat < 128 ∧ byte = UInt8.ofNat c.toNat := by
  unfold byte? at h
  split at h
  next hascii => exact ⟨hascii, (Option.some.inj h).symm⟩
  next => cases h

theorem closeCharacter_describes {unit : List Char} {byte : UInt8}
    (hunit : LiteralUnit '\'' unit byte) :
    (closeCharacter byte (unit.length + 1) rest).Describes '\'' (unit ++ rest) := by
  unfold closeCharacter
  split
  next after =>
    apply Describes.token (unit ++ ['\'']) after (by simp) (by simp)
    exact .character hunit
  next => exact .error nofun nofun

/-- A character is no backslash if neither the end of a text nor another one may follow it. -/
theorem ne_backslash {c : Char} (hlast : c = '\\' → rest = [] → False)
    (hescape : ∀ next after, c = '\\' → rest = next :: after → False) : c ≠ '\\' := by
  intro hc
  cases rest with
  | nil => exact hlast hc rfl
  | cons next after => exact hescape next after hc rfl

theorem character_describes : (character rest).Describes '\'' rest := by
  unfold character
  split
  any_goals exact .error nofun nofun
  · split
    next hbyte => exact closeCharacter_describes (.escaped hbyte)
    next => exact .error nofun nofun
  next c rest hquote hline hlast hescape =>
    split
    next byte hbyte =>
      obtain ⟨hascii, rfl⟩ := byte?_eq_some hbyte
      exact closeCharacter_describes (.plain hascii hquote (ne_backslash hlast hescape) hline)
    next => exact .error nofun nofun

/-- A text begins with a literal of some bytes up to its closing quote. -/
def BeginsLiteral (rest : List Char) (bytes : List UInt8) (count : Nat) : Prop :=
  ∃ text after, rest = text ++ '"' :: after ∧ text.length + 1 = count ∧ LiteralText '"' text bytes

theorem BeginsLiteral.cons {unit : List Char} {byte : UInt8} {bytes : List UInt8} {count : Nat}
    (h : BeginsLiteral rest bytes count) (hunit : LiteralUnit '"' unit byte) :
    BeginsLiteral (unit ++ rest) (byte :: bytes) (count + unit.length) := by
  obtain ⟨text, after, htext, hlength, hspelling⟩ := h
  refine ⟨unit ++ text, after, ?_, ?_, .cons hunit hspelling⟩
  · rw [htext, List.append_assoc]
  · rw [List.length_append]
    omega

theorem stringBytes_begins {bytes : List UInt8} {count : Nat}
    (h : stringBytes rest = .ok (bytes, count)) : BeginsLiteral rest bytes count := by
  fun_induction stringBytes rest generalizing bytes count with
  | case1 | case3 | case4 | case6 | case8 => cases h
  | case2 after =>
      cases h
      exact ⟨[], after, rfl, rfl, .nil⟩
  | case5 c rest byte hbyte ih =>
      obtain ⟨read, hread, hsame⟩ := map_eq_ok.mp h
      cases hsame
      exact (ih hread).cons (.escaped hbyte)
  | case7 c rest hquote hline hlast hescape byte hbyte ih =>
      obtain ⟨read, hread, hsame⟩ := map_eq_ok.mp h
      cases hsame
      obtain ⟨hascii, rfl⟩ := byte?_eq_some hbyte
      exact (ih hread).cons (.plain hascii hquote (ne_backslash hlast hescape) hline)

theorem stringBytes_inText {cause : LexError} (h : stringBytes rest = .error cause) :
    cause.InText := by
  fun_induction stringBytes rest with
  | case1 | case3 | case4 | case6 | case8 =>
      cases h
      exact ⟨nofun, nofun⟩
  | case2 => cases h
  | case5 c rest byte hbyte ih | case7 c rest _ _ _ _ byte hbyte ih =>
      exact ih (map_eq_error.mp h)

theorem string_describes : (string rest).Describes '"' rest := by
  unfold string
  split
  next bytes count hbytes =>
    obtain ⟨text, after, htext, hlength, hspelling⟩ := stringBytes_begins hbytes
    apply Describes.token (text ++ ['"']) after
    · rw [htext, List.append_assoc, List.singleton_append]
    · rw [List.length_append]
      exact hlength
    · exact .string hspelling
  next hcause => exact stringBytes_inText hcause

theorem directive_describes : (directive rest).Describes '#' rest := by
  unfold directive
  simp only
  split
  next hname =>
    apply Describes.token _ (rest.dropWhile Char.isAlpha)
      List.takeWhile_append_dropWhile.symm rfl
    rw [hname]
    exact .inclusion
  next => exact .error nofun nofun

/-- What a text begins with, as a whole. -/
theorem read_describes : (read first rest).Describes first rest := by
  unfold read
  split
  next hblank => exact hblank
  next =>
    split
    next hstart => exact word_describes hstart
    next =>
      split
      next hdigit => exact number_describes hdigit
      next =>
        split
        all_goals
          first
          | exact .short rfl
          | exact markOr_describes rfl (by decide)
          | exact character_describes
          | exact string_describes
          | exact directive_describes
          | exact .error nofun nofun
          | split
            all_goals
              first
              | exact .long rfl
              | exact .short rfl
              | exact .error nofun nofun
              | exact ⟨rfl, _, rfl⟩

theorem describes_of_read {lexeme : Lexeme} (h : read first rest = lexeme) :
    lexeme.Describes first rest :=
  h ▸ read_describes

/-! ## What is spelled is read -/

/-- What follows a text is set off from it. -/
def SetOff (after : List Char) : Prop := ∀ c ∈ after.head?, isBlank c = true

theorem SetOff.nil : SetOff [] := nofun

theorem SetOff.blank {c : Char} {rest : List Char} (h : isBlank c = true) : SetOff (c :: rest) :=
  fun _ hc => Option.some.inj hc ▸ h

/-- All blanks. -/
def blanks : List Char := [' ', '\t', '\n', '\x0c', '\r']

theorem mem_blanks {c : Char} (h : isBlank c = true) : c ∈ blanks := by
  simpa [isBlank, blanks, or_assoc] using h

theorem digit_cases {c : Char} (h : c.isDigit = true) : c ∈ "0123456789".toList := by
  have hall : ∀ n < 58, 48 ≤ n → Char.ofNat n ∈ "0123456789".toList := by decide
  rw [← Char.ofNat_toNat c]
  simp only [Char.isDigit, Bool.and_eq_true, decide_eq_true_eq, ge_iff_le,
    UInt32.le_iff_toNat_le] at h
  exact hall _ (Nat.lt_succ_of_le h.2) h.1

/-- What is set off from a text is not taken with it. -/
theorem takeWhile_setOff {holds : Char → Bool} {text after : List Char}
    (htext : ∀ c ∈ text, holds c = true) (hafter : SetOff after)
    (hblank : blanks.any holds = false) :
    (text ++ after).takeWhile holds = text := by
  rw [List.takeWhile_append_of_pos htext]
  cases after with
  | nil => simp
  | cons c after => simp [List.any_eq_false.mp hblank c (mem_blanks (hafter c rfl))]

theorem length_le_takeWhile {holds : Char → Bool} {text after : List Char}
    (htext : ∀ c ∈ text, holds c = true) :
    text.length ≤ ((text ++ after).takeWhile holds).length := by
  rw [List.takeWhile_append_of_pos htext, List.length_append]
  exact Nat.le_add_right _ _

/-- A letter begins a word. -/
theorem read_word (hstart : isWordStart first = true) : read first rest = word first rest := by
  have hblank : isBlank first = false := by
    by_contra hblank
    have hall : ∀ c ∈ blanks, isWordStart c = false :=
      List.all_iff_forall_prop.mp (by decide)
    rw [hall first (mem_blanks (by simpa using hblank))] at hstart
    cases hstart
  unfold read
  rw [if_neg (by simp [hblank]), if_pos hstart]

/-- A digit begins a number. -/
theorem read_number (hdigit : first.isDigit = true) : read first rest = number first rest := by
  have hall : ∀ c ∈ "0123456789".toList, isBlank c = false ∧ isWordStart c = false :=
    List.all_iff_forall_prop.mp (by decide)
  obtain ⟨hblank, hstart⟩ := hall first (digit_cases hdigit)
  unfold read
  rw [if_neg (by simp [hblank]), if_neg (by simp [hstart]), if_pos hdigit]

end Lexeme

theorem Keyword.isWord_text (word : Keyword) : IsWord word.text := by
  cases word <;> exact ⟨_, _, rfl, by decide, List.all_iff_forall_prop.mp (by decide)⟩

/-- The text of a keyword is read as it. -/
theorem Keyword.ofText?_text (word : Keyword) : ofText? word.text = some word := by
  cases word <;> decide

namespace Lexeme

variable {first : Char} {rest text after : List Char}

theorem word_identifier {name : String} (hname : name.toList = first :: text)
    (hpart : ∀ c ∈ text, isWordPart c = true) (hafter : SetOff after) :
    word first (text ++ after) = match Keyword.ofText? name with
      | some keyword => .token (.keyword keyword) text.length
      | none => .token (.identifier name) text.length := by
  have hfirst : String.ofList (first :: text) = name := by rw [← hname, String.ofList_toList]
  cases hword : Keyword.ofText? name <;>
    simp only [word, takeWhile_setOff hpart hafter (by decide), hfirst, hword]

theorem number_decimal (hrest : first = '0' → ∀ c ∈ rest.head?, c ≠ 'x' ∧ c ≠ 'X') :
    number first rest =
      integer 10 (first :: rest.takeWhile Char.isDigit) (rest.takeWhile Char.isDigit).length := by
  unfold number
  split
  next => exact absurd rfl (hrest rfl 'x' rfl).1
  next => exact absurd rfl (hrest rfl 'X' rfl).2
  next => rfl

theorem digit_ne_x {c : Char} (h : c.isDigit = true) : c ≠ 'x' ∧ c ≠ 'X' := by
  have hall : ∀ c ∈ "0123456789".toList, c ≠ 'x' ∧ c ≠ 'X' :=
    List.all_iff_forall_prop.mp (by decide)
  exact hall c (digit_cases h)

theorem number_hexadecimal {x : Char} (hx : x = 'x' ∨ x = 'X') :
    number '0' (x :: rest) =
      if rest.takeWhile isHexDigit = [] then .error .missingHexDigits
      else integer 16 (rest.takeWhile isHexDigit) ((rest.takeWhile isHexDigit).length + 1) := by
  rcases hx with rfl | rfl <;> rfl

theorem character_unit {unit : List Char} {byte : UInt8} (hunit : LiteralUnit '\'' unit byte) :
    character (unit ++ rest) = closeCharacter byte (unit.length + 1) rest := by
  cases hunit with
  | @plain c hascii hquote hslash hline =>
      have hbyte : byte? c = some (UInt8.ofNat c.toNat) := if_pos hascii
      rw [List.singleton_append, character.eq_6 _ _ hquote hline (fun h => absurd h hslash)
        (fun _ _ h => absurd h hslash)]
      simp only [hbyte]
      rfl
  | escaped hescape =>
      simp only [List.cons_append, List.nil_append, character, hescape]
      rfl

theorem stringBytes_text {bytes : List UInt8} (htext : LiteralText '"' text bytes) :
    stringBytes (text ++ '"' :: after) = .ok (bytes, text.length + 1) := by
  induction htext with
  | nil => rfl
  | @cons unit text byte bytes hunit htext ih =>
      rw [List.append_assoc]
      cases hunit with
      | @plain c hascii hquote hslash hline =>
          have hbyte : byte? c = some (UInt8.ofNat c.toNat) := if_pos hascii
          rw [List.singleton_append, stringBytes.eq_6 _ _ hquote hline (fun h => absurd h hslash)
            (fun _ _ h => absurd h hslash)]
          simp only [hbyte, ih]
          rfl
      | escaped hescape =>
          simp only [List.cons_append, List.nil_append, stringBytes, hescape, ih]
          rfl

theorem read_character {unit : List Char} {byte : UInt8} (hunit : LiteralUnit '\'' unit byte) :
    read '\'' (unit ++ ['\''] ++ after) =
      .token (.character byte) (unit ++ ['\'']).length := by
  have hread : ∀ rest, read '\'' rest = character rest := fun _ => rfl
  rw [hread, List.append_assoc, character_unit hunit, List.length_append]
  rfl

/-- A string literal is read to the bytes that it denotes, up to its closing quote, whatever follows. -/
theorem read_string {bytes : List UInt8} (htext : LiteralText '"' text bytes) :
    read '"' (text ++ ['"'] ++ after) = .token (.string bytes) (text ++ ['"']).length := by
  have hread : ∀ rest, read '"' rest = string rest := fun _ => rfl
  rw [hread, List.append_assoc, string, List.singleton_append, stringBytes_text htext,
    List.length_append]
  rfl

theorem read_directive : read '#' rest = directive rest := rfl

theorem markOr_setOff {short : Mark} {longer : List (Char × Mark)} (hafter : SetOff after)
    (hlonger : ∀ pair ∈ longer, isBlank pair.1 = false) :
    markOr short after longer = .token (.mark short) 0 := by
  unfold markOr
  split
  next c after =>
    have hlookup : longer.lookup c = none := by
      rw [List.lookup_eq_none_iff]
      intro pair hmem
      have hblank := hlonger pair hmem
      have hc : isBlank c = true := hafter c rfl
      grind
    rw [hlookup]
  next => rfl

/-- A spelling that is set off is read as its token. -/
theorem read_spelling {token : Token} (h : token.Spelling (first :: text)) (hafter : SetOff after) :
    read first (text ++ after) = .token token text.length := by
  generalize hwhole : first :: text = whole at h
  cases h with
  | identifier hword hfree =>
      obtain ⟨start, part, hname, hstart, hpart⟩ := hword
      obtain ⟨rfl, rfl⟩ := List.cons.inj (hwhole.trans hname)
      rw [read_word hstart, word_identifier hname hpart hafter, hfree]
  | keyword word =>
      obtain ⟨start, part, hname, hstart, hpart⟩ := word.isWord_text
      obtain ⟨rfl, rfl⟩ := List.cons.inj (hwhole.trans hname)
      rw [read_word hstart, word_identifier hname hpart hafter, word.ofText?_text]
  | decimal hne hdigits hfits =>
      subst hwhole
      obtain ⟨hfirst, htext⟩ := List.forall_mem_cons.mp hdigits
      have hhead : ∀ c ∈ (text ++ after).head?, c ≠ 'x' ∧ c ≠ 'X' := by
        intro c hc
        cases text with
        | nil =>
            have hall : ∀ c ∈ blanks, c ≠ 'x' ∧ c ≠ 'X' :=
              List.all_iff_forall_prop.mp (by decide)
            exact hall c (mem_blanks (hafter c hc))
        | cons next text => exact Option.some.inj hc ▸ digit_ne_x (htext next List.mem_cons_self)
      rw [read_number hfirst, number_decimal fun _ => hhead, takeWhile_setOff htext hafter (by decide),
        integer_eq (by decide) (by decide) fun c hmem => isHexDigit_of_isDigit (hdigits c hmem)]
      exact if_pos hfits
  | hexadecimal hx hne hdigits hfits =>
      obtain ⟨rfl, rfl⟩ := List.cons.inj hwhole
      rw [read_number rfl, List.cons_append, number_hexadecimal hx,
        takeWhile_setOff hdigits hafter (by decide), if_neg hne,
        integer_eq (by decide) (by decide) hdigits]
      exact if_pos hfits
  | character hunit =>
      obtain ⟨rfl, rfl⟩ := List.cons.inj hwhole
      exact read_character hunit
  | string htext =>
      obtain ⟨rfl, rfl⟩ := List.cons.inj hwhole
      exact read_string htext
  | inclusion =>
      have hsign : "#include".toList = '#' :: "include".toList := rfl
      obtain ⟨rfl, rfl⟩ := List.cons.inj (hwhole.trans hsign)
      rw [read_directive, directive,
        takeWhile_setOff (List.all_iff_forall_prop.mp (by decide)) hafter (by decide)]
      rfl
  | mark m =>
      have hnot : ∀ c ∈ after.head?, c ≠ '/' ∧ c ≠ '*' := by
        have hall : ∀ c ∈ blanks, c ≠ '/' ∧ c ≠ '*' := List.all_iff_forall_prop.mp (by decide)
        exact fun c hc => hall c (mem_blanks (hafter c hc))
      cases m
      case slash =>
        simp only [Mark.text, String.reduceToList, List.cons.injEq] at hwhole
        obtain ⟨rfl, rfl⟩ := hwhole
        cases after with
        | nil => rfl
        | cons c after =>
            obtain ⟨hslash, hstar⟩ := hnot c rfl
            simp [read, isBlank, isWordStart, hslash, hstar]
      all_goals
        simp only [Mark.text, String.reduceToList, List.cons.injEq] at hwhole
        obtain ⟨rfl, rfl⟩ := hwhole
        first
        | rfl
        | exact markOr_setOff hafter (by decide)

/-! ## What is read is the longest -/

theorem length_of_word {token : Token} {more : Nat} (h : word first rest = .token token more) :
    more = (rest.takeWhile isWordPart).length := by
  unfold word at h
  simp only at h
  split at h <;> cases h <;> rfl

theorem length_of_integer {base : UInt32} {digits : List Char} {token : Token} {count more : Nat}
    (h : integer base digits count = .token token more) : more = count := by
  unfold integer at h
  split at h <;> cases h
  rfl

theorem length_of_directive {token : Token} {more : Nat}
    (h : directive rest = .token token more) : more = "include".toList.length := by
  unfold directive at h
  simp only at h
  split at h
  next hname =>
    cases h
    rw [hname]
  next => cases h

theorem length_le_of_word {token : Token} {more : Nat} {name : String} (hword : IsWord name)
    (hname : first :: text = name.toList) (hread : read first (text ++ after) = .token token more) :
    text.length ≤ more := by
  obtain ⟨start, part, hparts, hstart, hpart⟩ := hword
  obtain ⟨rfl, rfl⟩ := List.cons.inj (hname.trans hparts)
  rw [read_word hstart] at hread
  rw [length_of_word hread]
  exact length_le_takeWhile hpart

/-- No longer text than the one that is taken spells a token. -/
theorem length_le_of_read {token other : Token} {more : Nat} (h : other.Spelling (first :: text))
    (hread : read first (text ++ after) = .token token more) : text.length ≤ more := by
  generalize hwhole : first :: text = whole at h
  cases h with
  | identifier hword hfree => exact length_le_of_word hword hwhole hread
  | keyword word => exact length_le_of_word word.isWord_text hwhole hread
  | decimal hne hdigits hfits =>
      subst hwhole
      obtain ⟨hfirst, htext⟩ := List.forall_mem_cons.mp hdigits
      cases text with
      | nil => exact Nat.zero_le _
      | cons next text =>
          have hhead : ∀ c ∈ (next :: text ++ after).head?, c ≠ 'x' ∧ c ≠ 'X' :=
            fun c hc => Option.some.inj hc ▸ digit_ne_x (htext next List.mem_cons_self)
          rw [read_number hfirst, number_decimal fun _ => hhead] at hread
          rw [length_of_integer hread]
          exact length_le_takeWhile htext
  | @hexadecimal x digits hx hne hdigits hfits =>
      obtain ⟨rfl, rfl⟩ := List.cons.inj hwhole
      rw [read_number rfl, List.cons_append, number_hexadecimal hx] at hread
      split at hread
      next => cases hread
      next =>
        rw [length_of_integer hread, List.length_cons]
        exact Nat.succ_le_succ (length_le_takeWhile hdigits)
  | character hunit =>
      obtain ⟨rfl, rfl⟩ := List.cons.inj hwhole
      rw [read_character hunit] at hread
      cases hread
      exact Nat.le_refl _
  | string htext =>
      obtain ⟨rfl, rfl⟩ := List.cons.inj hwhole
      rw [read_string htext] at hread
      cases hread
      exact Nat.le_refl _
  | inclusion =>
      have hsign : "#include".toList = '#' :: "include".toList := rfl
      obtain ⟨rfl, rfl⟩ := List.cons.inj (hwhole.trans hsign)
      rw [read_directive] at hread
      rw [length_of_directive hread]
  | mark m =>
      cases m
      all_goals
        simp only [Mark.text, String.reduceToList, List.cons.injEq] at hwhole
        obtain ⟨rfl, rfl⟩ := hwhole
        first
        | exact Nat.zero_le _
        | cases hread; exact Nat.le_refl _

end Lexeme

/-! ## The characters of a spelling -/

/-- A character of the target machine that does not end a line. -/
def IsPlain (c : Char) : Prop := c.toNat < 128 ∧ c ≠ '\n'

instance (c : Char) : Decidable (IsPlain c) := inferInstanceAs (Decidable (_ ∧ _))

theorem isPlain_of_digit {c : Char} (h : c.isDigit = true) : IsPlain c := by
  have hall : ∀ c ∈ "0123456789".toList, IsPlain c := List.all_iff_forall_prop.mp (by decide)
  exact hall c (Lexeme.digit_cases h)

theorem isPlain_of_wordPart {c : Char} (h : Lexeme.isWordPart c = true) : IsPlain c := by
  constructor
  · have hbound : ∀ last : Char, c.val ≤ last.val → last.toNat < 128 → c.toNat < 128 :=
      fun last hle hlast => Nat.lt_of_le_of_lt (UInt32.le_iff_toNat_le.mp hle) hlast
    simp only [Lexeme.isWordPart, Char.isAlphanum, Bool.or_eq_true, decide_eq_true_eq] at h
    obtain (hletter | hdigit) | rfl := h
    · obtain hupper | hlower := (Bool.or_eq_true _ _).mp hletter
      · exact hbound 'Z' (of_decide_eq_true hupper).2 (by decide)
      · exact hbound 'z' (of_decide_eq_true ((Bool.and_eq_true _ _).mp hlower).2) (by decide)
    · exact hbound '9' (of_decide_eq_true ((Bool.and_eq_true _ _).mp hdigit).2) (by decide)
    · decide
  · rintro rfl
    cases h

theorem isPlain_of_wordStart {c : Char} (h : Lexeme.isWordStart c = true) : IsPlain c := by
  apply isPlain_of_wordPart
  simp only [Lexeme.isWordStart, Lexeme.isWordPart, Char.isAlphanum, Bool.or_eq_true] at h ⊢
  exact h.imp_left .inl

theorem isPlain_of_hexDigit {c : Char} (h : Lexeme.isHexDigit c = true) : IsPlain c := by
  constructor
  · simp only [Lexeme.isHexDigit, Bool.or_eq_true, Bool.and_eq_true, decide_eq_true_eq] at h
    rcases h with (hdigit | ⟨-, h⟩) | ⟨-, h⟩
    · exact (isPlain_of_digit hdigit).1
    · exact Nat.lt_of_le_of_lt h (by decide)
    · exact Nat.lt_of_le_of_lt h (by decide)
  · rintro rfl
    cases h

theorem LiteralUnit.isPlain {quote : Char} {unit : List Char} {byte : UInt8}
    (h : LiteralUnit quote unit byte) : ∀ c ∈ unit, IsPlain c := by
  cases h with
  | plain hascii hquote hslash hline =>
      intro c hmem
      rw [List.mem_singleton.mp hmem]
      exact ⟨hascii, hline⟩
  | @escaped c byte hescape =>
      unfold Lexeme.escape? at hescape
      split at hescape
      all_goals first | exact List.all_iff_forall_prop.mp (by decide) |  cases hescape

theorem LiteralText.isPlain {quote : Char} {text : List Char} {bytes : List UInt8}
    (h : LiteralText quote text bytes) : ∀ c ∈ text, IsPlain c := by
  induction h with
  | nil => nofun
  | cons hunit _ ih => exact List.forall_mem_append.mpr ⟨hunit.isPlain, ih⟩

/-- Every spelling is on one line, and in characters of the target machine. -/
theorem Token.Spelling.isPlain {token : Token} {text : List Char} (h : token.Spelling text) :
    ∀ c ∈ text, IsPlain c := by
  have hword : ∀ name, IsWord name → ∀ c ∈ name.toList, IsPlain c := by
    rintro name ⟨first, rest, hname, hstart, hrest⟩
    rw [hname]
    exact List.forall_mem_cons.mpr
      ⟨isPlain_of_wordStart hstart, fun c hmem => isPlain_of_wordPart (hrest c hmem)⟩
  have hquoted : ∀ quote text, IsPlain quote → (∀ c ∈ text, IsPlain c) →
      ∀ c ∈ quote :: (text ++ [quote]), IsPlain c := by
    intro quote text hquote htext
    exact List.forall_mem_cons.mpr ⟨hquote, List.forall_mem_append.mpr
      ⟨htext, List.forall_mem_singleton.mpr hquote⟩⟩
  cases h with
  | identifier hname _ => exact hword _ hname
  | keyword word => exact hword _ word.isWord_text
  | decimal hne hdigits hfits => exact fun c hmem => isPlain_of_digit (hdigits c hmem)
  | hexadecimal hx hne hdigits hfits =>
      refine List.forall_mem_cons.mpr ⟨by decide, List.forall_mem_cons.mpr ⟨?_, ?_⟩⟩
      · rcases hx with rfl | rfl <;> decide
      · exact fun c hmem => isPlain_of_hexDigit (hdigits c hmem)
  | character hunit => exact hquoted _ _ (by decide) hunit.isPlain
  | string htext => exact hquoted _ _ (by decide) htext.isPlain
  | inclusion => exact List.all_iff_forall_prop.mp (by decide)
  | mark m => cases m <;> exact List.all_iff_forall_prop.mp (by decide)

theorem Token.Spelling.newline_not_mem {token : Token} {text : List Char}
    (h : token.Spelling text) : '\n' ∉ text := fun hmem => (h.isPlain _ hmem).2 rfl

theorem Token.Spelling.exists_cons {token : Token} {text : List Char} (h : token.Spelling text) :
    ∃ first rest, text = first :: rest := by
  cases h with
  | identifier hname _ =>
      obtain ⟨first, rest, hparts, -, -⟩ := hname
      exact ⟨first, rest, hparts⟩
  | keyword word =>
      obtain ⟨first, rest, hparts, -, -⟩ := word.isWord_text
      exact ⟨first, rest, hparts⟩
  | decimal hne _ _ => exact List.exists_cons_of_ne_nil hne
  | hexadecimal | character | string => exact ⟨_, _, rfl⟩
  | inclusion => exact ⟨_, _, rfl⟩
  | mark m => cases m <;> exact ⟨_, _, rfl⟩

/-! ## Cutting a text that is spelled -/

section Cutting

variable (source : Source) (start : Location) (p : Position) {first : Char} {rest after : List Char}

/-- Blanks between tokens are skipped. -/
theorem cutLine_blank (h : Lexeme.isBlank first = true) :
    cutLine source start p (first :: rest) =
      cutLine source (.cell source p) (p.after first) rest := by
  have hread : Lexeme.read first rest = .blank := if_pos h
  rw [cutLine]
  simp only [hread]

/-- A spelling that is set off from what follows is cut as its token. -/
theorem cutLine_spelling {token : Token} (h : token.Spelling (first :: rest))
    (hafter : Lexeme.SetOff after) :
    cutLine source start p (first :: rest ++ after) =
      (.ok ⟨token, spanFrom source p (first :: rest ++ after) rest.length⟩ ::
        (cutLine source (.cell source p) (p.afterAll (first :: rest)) after).1,
      (cutLine source (.cell source p) (p.afterAll (first :: rest)) after).2) := by
  have hread := Lexeme.read_spelling h hafter
  rw [List.cons_append, cutLine]
  simp only [hread, List.take_left, List.drop_left]

end Cutting

end AccumulatorC
