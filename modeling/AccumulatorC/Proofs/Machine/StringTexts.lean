import AccumulatorC.Machine.Assembly
import AccumulatorC.Token.Lexeme

/-!
# The text of string data

String data stands between quotes in one line. It is read from left to right in units: a printable
character stands for itself, and a backslash begins an escape, which is one character or an `x` and
two hexadecimal digits. Every byte is written as one such unit. A unit says by itself where it ends,
so what is read are the bytes that were written, whatever stands behind them.
-/

namespace AccumulatorC

/-! ## Reading -/

/-- The byte that a character behind a backslash stands for in string data. -/
def dataEscape? (c : Char) : Option UInt8 :=
  match c with
  | '"' => some 34
  | '\\' => some 92
  | 'n' => some 10
  | 't' => some 9
  | 'r' => some 13
  | '0' => some 0
  | _ => none

/-- A character of the target machine that takes one column. -/
def IsPrintable (c : Char) : Prop := 0x20 ≤ c.toNat ∧ c.toNat ≤ 0x7e

instance (c : Char) : Decidable (IsPrintable c) := inferInstanceAs (Decidable (_ ∧ _))

/-- The byte of two hexadecimal digits. -/
def byteOfDigits (high low : Char) : UInt8 :=
  UInt8.ofNat (16 * Lexeme.digitValue high + Lexeme.digitValue low)

/-- Reads string data from left to right, as far as it goes: a quote without a backslash ends it, and
so does everything else that belongs to no unit. Gives the bytes, and the characters from there on. -/
def readData : List Char → List UInt8 × List Char
  | '\\' :: 'x' :: high :: low :: rest =>
      if Lexeme.isHexDigit high && Lexeme.isHexDigit low then
        (byteOfDigits high low :: (readData rest).1, (readData rest).2)
      else ([], '\\' :: 'x' :: high :: low :: rest)
  | '\\' :: c :: rest =>
      match dataEscape? c with
      | some byte => (byte :: (readData rest).1, (readData rest).2)
      | none => ([], '\\' :: c :: rest)
  | c :: rest =>
      if IsPrintable c ∧ c ≠ '"' ∧ c ≠ '\\' then
        (UInt8.ofNat c.toNat :: (readData rest).1, (readData rest).2)
      else ([], c :: rest)
  | [] => ([], [])

/-- A byte of string data as it can be written between quotes. -/
inductive DataUnit : List Char → UInt8 → Prop
  | plain {c : Char} (hprintable : IsPrintable c) (hquote : c ≠ '"') (hslash : c ≠ '\\') :
      DataUnit [c] (UInt8.ofNat c.toNat)
  | escaped {c : Char} {byte : UInt8} (h : dataEscape? c = some byte) : DataUnit ['\\', c] byte
  | hexadecimal {high low : Char} (hhigh : Lexeme.isHexDigit high = true)
      (hlow : Lexeme.isHexDigit low = true) :
      DataUnit ['\\', 'x', high, low] (byteOfDigits high low)

/-- The letters of escapes are printable. -/
theorem isPrintable_of_dataEscape {c : Char} {byte : UInt8} (h : dataEscape? c = some byte) :
    IsPrintable c := by
  unfold dataEscape? at h
  split at h
  all_goals first | decide | cases h

theorem isPrintable_of_hexDigit {c : Char} (h : Lexeme.isHexDigit c = true) : IsPrintable c := by
  simp only [Lexeme.isHexDigit, Char.isDigit, Bool.or_eq_true, Bool.and_eq_true,
    decide_eq_true_eq] at h
  have hbounds : ∀ first last : Char, first ≤ c → c ≤ last → 0x20 ≤ first.toNat →
      last.toNat ≤ 0x7e → IsPrintable c := fun _ _ hfirst hlast hleast hmost =>
    ⟨Nat.le_trans hleast (UInt32.le_iff_toNat_le.mp hfirst),
      Nat.le_trans (UInt32.le_iff_toNat_le.mp hlast) hmost⟩
  rcases h with (⟨hfirst, hlast⟩ | ⟨hfirst, hlast⟩) | ⟨hfirst, hlast⟩
  · exact hbounds '0' '9' hfirst hlast (by decide) (by decide)
  · exact hbounds 'a' 'f' hfirst hlast (by decide) (by decide)
  · exact hbounds 'A' 'F' hfirst hlast (by decide) (by decide)

namespace DataUnit

variable {unit : List Char} {byte : UInt8}

/-- Each unit is read as its byte, whatever stands behind it. -/
theorem readData_append (h : DataUnit unit byte) (rest : List Char) :
    readData (unit ++ rest) = (byte :: (readData rest).1, (readData rest).2) := by
  cases h with
  | plain hprintable hquote hslash =>
      -- The other equations are for characters behind a backslash.
      rw [List.singleton_append, readData.eq_3]
      · exact if_pos ⟨hprintable, hquote, hslash⟩
      · intro _ _ _ hc _
        exact hslash hc
      · intro _ _ hc _
        exact hslash hc
  | @escaped c byte hescape =>
      -- An `x` would begin an escape with digits.
      have hx : c ≠ 'x' := by
        rintro rfl
        cases hescape
      rw [List.cons_append, List.singleton_append, readData.eq_2]
      · rw [hescape]
      · intro _ _ _ hc _
        exact hx hc
  | hexadecimal hhigh hlow =>
      rw [List.cons_append, List.cons_append, List.cons_append, List.singleton_append,
        readData.eq_1, hhigh, hlow]
      rfl

theorem isPrintable (h : DataUnit unit byte) : ∀ c ∈ unit, IsPrintable c := by
  cases h with
  | plain hprintable => exact List.forall_mem_singleton.mpr hprintable
  | escaped hescape => simp [isPrintable_of_dataEscape hescape, show IsPrintable '\\' by decide]
  | hexadecimal hhigh hlow =>
      simp [isPrintable_of_hexDigit hhigh, isPrintable_of_hexDigit hlow,
        show IsPrintable '\\' by decide, show IsPrintable 'x' by decide]

end DataUnit

/-! ## Writing -/

/-- A printable byte is the number of its character, and only quotes and backslashes are written
like others. -/
theorem dataUnit_plain {byte : UInt8} (hleast : 0x20 ≤ byte) (hmost : byte ≤ 0x7e)
    (hquote : byte ≠ 34) (hslash : byte ≠ 92) : DataUnit [Char.ofNat byte.toNat] byte := by
  have hall : ∀ n < 0x7f, 0x20 ≤ n ∧ n ≠ 34 ∧ n ≠ 92 →
      (Char.ofNat n).toNat = n ∧ Char.ofNat n ≠ '"' ∧ Char.ofNat n ≠ '\\' := by decide
  have hother : ∀ other : UInt8, byte ≠ other → byte.toNat ≠ other.toNat := fun _ hne heq =>
    hne (UInt8.toNat_inj.mp heq)
  obtain ⟨hvalue, hquote, hslash⟩ := hall byte.toNat (Nat.lt_succ_of_le hmost)
    ⟨hleast, hother 34 hquote, hother 92 hslash⟩
  have hunit := DataUnit.plain ⟨hvalue.symm ▸ hleast, hvalue.symm ▸ hmost⟩ hquote hslash
  rwa [hvalue, UInt8.ofNat_toNat] at hunit

theorem dataUnit_hexadecimal (byte : UInt8) :
    DataUnit ('\\' :: 'x' :: (hexByte byte).toList) byte := by
  have hall : ∀ d < 16, Lexeme.isHexDigit d.digitChar = true ∧
      Lexeme.digitValue d.digitChar = d := by decide
  obtain ⟨hhigh, hhighValue⟩ := hall (byte.toNat / 16) (Nat.div_lt_of_lt_mul byte.toNat_lt)
  obtain ⟨hlow, hlowValue⟩ := hall (byte.toNat % 16) (Nat.mod_lt _ (by decide))
  have hunit := DataUnit.hexadecimal hhigh hlow
  rw [byteOfDigits, hhighValue, hlowValue, Nat.div_add_mod, UInt8.ofNat_toNat] at hunit
  rwa [hexByte, String.toList_ofList]

/-- Every byte is written as one unit. -/
theorem escapeByte_unit (byte : UInt8) : DataUnit (escapeByte byte).toList byte := by
  unfold escapeByte
  split
  next => exact .escaped rfl
  next => exact .escaped rfl
  next => exact .escaped rfl
  next => exact .escaped rfl
  next => exact .escaped rfl
  next => exact .escaped rfl
  next hquote hslash _ _ _ _ =>
    split
    next hrange =>
      rw [Char.toString_eq_singleton, String.toList_singleton]
      exact dataUnit_plain hrange.1 hrange.2 hquote hslash
    next =>
      rw [String.toList_append]
      exact dataUnit_hexadecimal byte

theorem toList_escapeBytes (bytes : List UInt8) :
    (escapeBytes bytes).toList = bytes.flatMap fun byte => (escapeByte byte).toList := by
  rw [escapeBytes, String.toList_join, List.flatMap_map]

/-- The bytes that were written are read first, and then what stands behind them. -/
theorem readData_escapeBytes (bytes : List UInt8) (rest : List Char) :
    readData ((escapeBytes bytes).toList ++ rest) =
      (bytes ++ (readData rest).1, (readData rest).2) := by
  rw [toList_escapeBytes]
  induction bytes with
  | nil => rfl
  | cons byte bytes ih =>
      rw [List.flatMap_cons, List.append_assoc, (escapeByte_unit byte).readData_append, ih]
      rfl

theorem isPrintable_escapeBytes (bytes : List UInt8) :
    ∀ c ∈ (escapeBytes bytes).toList, IsPrintable c := by
  rw [toList_escapeBytes]
  intro c hmem
  obtain ⟨byte, -, hc⟩ := List.mem_flatMap.mp hmem
  exact (escapeByte_unit byte).isPrintable c hc

/-- A zero is not the beginning of a longer escape, though digits follow it. -/
example : readData (escapeBytes [0, 49, 50, 255, 48, 92, 110]).toList =
    ([0, 49, 50, 255, 48, 92, 110], []) := by decide +kernel

/-! ## Lines -/

/-- The line of a string up to its opening quote. -/
def stringLead : List Char := "\t#d      \"".toList

/-- The line of a string, without its end: the directive, and between quotes the bytes and a zero. -/
def stringLine (bytes : List UInt8) : List Char :=
  stringLead ++ ((escapeBytes bytes).toList ++ ['\\', '0', '"'])

theorem toList_text_string (bytes : List UInt8) :
    (Line.data (.text bytes)).text.toList = stringLine bytes ++ ['\n'] := by
  have hlead : "\t".toList ++ ((column "#d").toList ++ "\"".toList) = stringLead := by
    decide +kernel
  have hlast : "\\0\"".toList ++ "\n".toList = ['\\', '0', '"', '\n'] := rfl
  rw [Line.text, Data.directive, stringLine, ← hlead]
  simp only [String.toList_append, List.append_assoc, hlast]
  rfl

/-- What stands between the quotes of the line of a string is read up to the closing one. -/
theorem readData_stringLine (bytes : List UInt8) (rest : List Char) :
    readData ((escapeBytes bytes).toList ++ (['\\', '0', '"'] ++ rest)) =
      (bytes ++ [0], '"' :: rest) := by
  have hquote : readData ('"' :: rest) = ([], '"' :: rest) := rfl
  have hzero : DataUnit ['\\', '0'] 0 := .escaped rfl
  have hlast := hzero.readData_append ('"' :: rest)
  rw [hquote] at hlast
  rw [readData_escapeBytes]
  exact congrArg (fun read => (bytes ++ read.1, read.2)) hlast

theorem newline_not_mem_stringLine (bytes : List UInt8) : '\n' ∉ stringLine bytes := by
  have hlead : '\n' ∉ stringLead := by decide +kernel
  have hescaped : '\n' ∉ (escapeBytes bytes).toList := fun hmem =>
    absurd (isPrintable_escapeBytes bytes _ hmem) (by decide)
  rw [stringLine, List.mem_append, List.mem_append]
  rintro (hmem | hmem | hmem)
  · exact hlead hmem
  · exact hescaped hmem
  · exact absurd hmem (by decide)

/-- Bytes are escaped without loss. They are read again from what is written for them, which is
printable; in their line they are read up to the closing quote, with one zero behind them, and the line
does not end before. -/
theorem escapeBytes_lossless (bytes : List UInt8) :
    readData (escapeBytes bytes).toList = (bytes, []) ∧
    (∀ c ∈ (escapeBytes bytes).toList, IsPrintable c) ∧
    (∀ rest, readData ((escapeBytes bytes).toList ++ (['\\', '0', '"'] ++ rest)) =
      (bytes ++ [0], '"' :: rest)) ∧
    '\n' ∉ stringLine bytes := by
  have hread := readData_escapeBytes bytes []
  rw [List.append_nil, show readData [] = ([], []) from rfl, List.append_nil] at hread
  exact ⟨hread, isPrintable_escapeBytes bytes, readData_stringLine bytes,
    newline_not_mem_stringLine bytes⟩

theorem getLast?_append_newline (text : String) :
    (text ++ "\n").toList.getLast? = some '\n' := by
  rw [String.toList_append, List.getLast?_append]
  rfl

theorem Line.getLast?_text (line : Line) : line.text.toList.getLast? = some '\n' := by
  cases line with
  | label l =>
      have htext : (Line.label l).text = l.text ++ ":" ++ "\n" := by
        rw [Line.text, String.append_assoc]
        rfl
      rw [htext]
      exact getLast?_append_newline _
  | data d => exact getLast?_append_newline _
  | instr i =>
      rw [Line.text]
      split <;> exact getLast?_append_newline _

namespace Assembly

/-- The text of a program, cut behind some of its lines. -/
theorem text_append (preface : Option String) (origin : UInt16) (front back : List Line) :
    (Assembly.mk preface origin (front ++ back)).text =
      (Assembly.mk preface origin front).text ++ String.join (back.map Line.text) := by
  simp only [text, List.map_append, String.join_append, String.append_assoc]

/-- The text of a program ends at the end of a line. -/
theorem getLast?_text (assembly : Assembly) : assembly.text.toList.getLast? = some '\n' := by
  obtain ⟨preface, origin, lines⟩ := assembly
  rcases List.eq_nil_or_concat lines with rfl | ⟨front, last, hlines⟩
  · rw [text, List.map_nil, String.join_nil, String.append_empty]
    exact getLast?_append_newline _
  · rw [hlines, List.concat_eq_append, text_append, String.toList_append, List.getLast?_append,
      List.map_singleton,
      String.join_cons, String.join_nil, String.append_empty, last.getLast?_text]
    rfl

/-- A line of a program stands in its text behind the end of another line. -/
theorem text_line {assembly : Assembly} {front back : List Line} {line : Line}
    (h : assembly.lines = front ++ line :: back) : ∃ before after : List Char,
      assembly.text.toList = before ++ (line.text.toList ++ after) ∧
        before.getLast? = some '\n' := by
  obtain ⟨preface, origin, lines⟩ := assembly
  subst h
  refine ⟨_, (String.join (back.map Line.text)).toList, ?_,
    getLast?_text ⟨preface, origin, front⟩⟩
  rw [text_append, List.map_cons, String.join_cons, String.toList_append, String.toList_append]

end Assembly

end AccumulatorC
