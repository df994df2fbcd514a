import AccumulatorC.Proofs.Text.Positions

/-!
# From bytes to lines

The lines of a source are its bytes without the ends of its lines, and a line that can be read is
the one text that has its bytes. Nothing else is lost on the way from the bytes of a source to its
characters.
-/

namespace AccumulatorC

/-! ## Bytes of a text -/

/-- The bytes of a text. -/
def encode (text : List Char) : List UInt8 := text.flatMap String.utf8EncodeChar

theorem toUTF8_eq_encode (text : String) : text.toUTF8 = (encode text.toList).toByteArray := by
  rw [String.toUTF8_eq_toByteArray, ← String.utf8Encode_toList]
  rfl

/-- A line of bytes is read as the text that it encodes, and only as that. -/
theorem decodeLine_eq_some {bytes : List UInt8} {text : String} :
    decodeLine bytes = some text ↔ bytes = encode text.toList := by
  rw [decodeLine, String.fromUTF8?, ← List.toByteArray_inj, ← toUTF8_eq_encode]
  constructor
  · intro h
    split at h
    · cases h
      rfl
    · cases h
  · rintro h
    have hvalid : bytes.toByteArray.IsValidUTF8 := h ▸ text.isValidUTF8
    rw [dif_pos hvalid]
    exact congrArg some (String.toByteArray_inj.mp h)

theorem mod_eq_of_byte {byte : UInt8} {n : Nat} (h : byte = UInt8.ofNat n) :
    n % 256 = byte.toNat := by
  rw [h, UInt8.toNat_ofNat']

/-- A character of the target machine is encoded by its own byte, and no other character has that
byte. -/
theorem byte_mem_utf8EncodeChar {byte : UInt8} (hbyte : byte.toNat < 128) {c : Char} :
    byte ∈ String.utf8EncodeChar c ↔ c.toNat = byte.toNat := by
  have hval : c.toNat = c.val.toNat := rfl
  rw [String.utf8EncodeChar.eq_1, hval]
  split
  next hascii =>
    rw [List.mem_singleton]
    constructor
    · intro h
      have := mod_eq_of_byte h
      omega
    · intro h
      rw [h, UInt8.ofNat_toNat]
  next hwide =>
    -- The bytes of any other character are at least 128.
    have hhigh : ∀ n, 128 ≤ n → n < 256 → byte ≠ UInt8.ofNat n := by
      intro n hle hlt heq
      have := mod_eq_of_byte heq
      omega
    apply iff_of_false _ (by omega)
    intro h
    split at h
    · simp only [List.mem_cons, List.not_mem_nil, or_false] at h
      rcases h with h | h <;> exact absurd h (hhigh _ (by omega) (by omega))
    · split at h
      · simp only [List.mem_cons, List.not_mem_nil, or_false] at h
        rcases h with h | h | h <;> exact absurd h (hhigh _ (by omega) (by omega))
      · simp only [List.mem_cons, List.not_mem_nil, or_false] at h
        rcases h with h | h | h | h <;> exact absurd h (hhigh _ (by omega) (by omega))

theorem newline_mem_utf8EncodeChar {c : Char} : 10 ∈ String.utf8EncodeChar c ↔ c = '\n' := by
  rw [byte_mem_utf8EncodeChar (by decide), ← Char.toNat_inj]
  exact Iff.rfl

theorem newline_mem_encode {text : List Char} : 10 ∈ encode text ↔ '\n' ∈ text := by
  simp only [encode, List.mem_flatMap, newline_mem_utf8EncodeChar, exists_eq_right]

/-! ## Cutting lines -/

/-- The bytes of lines: each line with its newline, which may have a carriage return in front, where
the last line needs no newline. -/
inductive Joins : List UInt8 → List (List UInt8) → Prop
  | nil : Joins [] []
  | last {line : List UInt8} (hline : 10 ∉ line) (hne : line ≠ []) : Joins line [line]
  | newline {line rest : List UInt8} {lines : List (List UInt8)} (hline : 10 ∉ line)
      (hreturn : line.getLast? ≠ some 13) (hrest : Joins rest lines) :
      Joins (line ++ 10 :: rest) (line :: lines)
  | returned {line rest : List UInt8} {lines : List (List UInt8)} (hline : 10 ∉ line)
      (hrest : Joins rest lines) : Joins (line ++ 13 :: 10 :: rest) (line :: lines)

theorem closeLine_joins {reversed rest : List UInt8} {lines : List (List UInt8)}
    (h : 10 ∉ reversed) (hrest : Joins rest lines) :
    Joins (reversed.reverse ++ 10 :: rest) (closeLine reversed :: lines) := by
  unfold closeLine
  split
  next before =>
    have hbefore : 10 ∉ before.reverse := by simp_all
    rw [List.reverse_cons, List.append_assoc]
    exact .returned hbefore hrest
  next hreturn =>
    refine .newline (by simpa using h) ?_ hrest
    rw [List.getLast?_reverse]
    intro hhead
    obtain ⟨before, rfl⟩ := List.head?_eq_some_iff.mp hhead
    exact hreturn before rfl

/-- The lines that are cut, joined by newlines, are the bytes. -/
theorem cutLines_joins {reversed bytes : List UInt8} (h : 10 ∉ reversed) :
    Joins (reversed.reverse ++ bytes) (cutLines reversed bytes) := by
  induction bytes generalizing reversed with
  | nil =>
      rw [cutLines, List.append_nil]
      cases reversed with
      | nil => exact .nil
      | cons byte before => exact .last (fun hmem => h (List.mem_reverse.mp hmem)) (by simp)
  | cons byte rest ih =>
      rw [cutLines]
      by_cases hbyte : byte = 10
      · rw [if_pos hbyte, hbyte]
        exact closeLine_joins h (ih List.not_mem_nil)
      · rw [if_neg hbyte, ← List.singleton_append, ← List.append_assoc, ← List.reverse_cons]
        apply ih
        simp [h, Ne.symm hbyte]

theorem Joins.newline_not_mem {bytes : List UInt8} {lines : List (List UInt8)}
    (h : Joins bytes lines) : ∀ line ∈ lines, 10 ∉ line := by
  induction h with
  | nil => nofun
  | last hline => exact List.forall_mem_singleton.mpr hline
  | newline hline _ _ ih => exact List.forall_mem_cons.mpr ⟨hline, ih⟩
  | returned hline _ ih => exact List.forall_mem_cons.mpr ⟨hline, ih⟩

/-! ## Lines that can be read -/

theorem cutLines_of_not_mem {reversed bytes : List UInt8} (h : 10 ∉ bytes) :
    cutLines reversed bytes =
      if reversed.reverse ++ bytes = [] then [] else [reversed.reverse ++ bytes] := by
  induction bytes generalizing reversed with
  | nil => simp [cutLines, List.isEmpty_iff]
  | cons byte rest ih =>
      obtain ⟨hbyte, hrest⟩ := List.ne_and_not_mem_of_not_mem_cons h
      rw [cutLines, if_neg hbyte.symm, ih hrest]
      simp

/-- A text on one line is read as this line. -/
theorem readLines_of_line {text : List Char} (hne : text ≠ []) (h : '\n' ∉ text) :
    readLines (String.ofList text).toUTF8 = [some (String.ofList text)] := by
  have hbytes : (String.ofList text).toUTF8.data.toList = encode text := by
    rw [toUTF8_eq_encode, List.data_toByteArray, String.toList_ofList]
  have hencode : encode text ≠ [] := by
    obtain ⟨c, rest, rfl⟩ := List.exists_cons_of_ne_nil hne
    exact List.append_ne_nil_of_left_ne_nil String.utf8EncodeChar_ne_nil _
  rw [readLines, hbytes, cutLines_of_not_mem (mt newline_mem_encode.mp h),
    if_neg (by simpa using hencode)]
  have hdecode : decodeLine (encode text) = some (String.ofList text) :=
    decodeLine_eq_some.mpr (by rw [String.toList_ofList])
  simp [hdecode]

/-- The characters of a line, with its newline and no other one. -/
def IsLine (line : List Char) : Prop := ∃ body, '\n' ∉ body ∧ line = body ++ ['\n']

namespace Reading

variable {name : String} {bytes : ByteArray}

theorem isLine_of_mem {line : List Char} (h : some line ∈ (ofBytes name bytes).lines) :
    IsLine line := by
  obtain ⟨decoded, hmem, hline⟩ := List.mem_map.mp h
  obtain ⟨own, hown, hdecoded⟩ := List.mem_map.mp hmem
  cases decoded with
  | none => cases hline
  | some text =>
      obtain rfl := Option.some.inj hline
      have hbytes := decodeLine_eq_some.mp hdecoded
      have hnot := (cutLines_joins List.not_mem_nil).newline_not_mem own hown
      rw [hbytes] at hnot
      exact ⟨text.toList, mt newline_mem_encode.mpr hnot, rfl⟩

theorem lines_of_characters {source : Source} {number : Nat} {lines : List (Option (List Char))}
    {chars : List (Located Char)} (h : charactersFrom source number lines = chars.map some) :
    ∃ texts : List (List Char), lines = texts.map some ∧ textOf chars = texts.flatten := by
  induction lines generalizing number chars with
  | nil =>
      obtain rfl : chars = [] := List.map_eq_nil_iff.mp h.symm
      exact ⟨[], rfl, rfl⟩
  | cons line lines ih =>
      cases line with
      | none =>
          cases chars with
          | nil => cases h
          | cons c chars => cases (List.cons.inj h).1
      | some line =>
          obtain ⟨own, later, rfl, hown, hlater⟩ := List.append_eq_map_iff.mp h
          obtain rfl : own = locate source ⟨number, 1⟩ line :=
            (List.map_inj_right fun _ _ => Option.some.inj).mp hown
          obtain ⟨texts, rfl, htexts⟩ := ih hlater.symm
          refine ⟨line :: texts, rfl, ?_⟩
          rw [textOf_append, textOf_locate, htexts, List.flatten_cons]

theorem decoded_lines {lines : List (List UInt8)} {texts : List (List Char)}
    (h : (lines.map decodeLine).map (·.map fun text => text.toList ++ ['\n']) = texts.map some) :
    ∃ bodies : List (List Char), lines = bodies.map encode ∧ texts = bodies.map (· ++ ['\n']) := by
  induction lines generalizing texts with
  | nil =>
      obtain rfl : texts = [] := List.map_eq_nil_iff.mp h.symm
      exact ⟨[], rfl, rfl⟩
  | cons line lines ih =>
      cases texts with
      | nil => cases h
      | cons text texts =>
          obtain ⟨hfirst, hrest⟩ := List.cons.inj h
          obtain ⟨decoded, hdecoded, rfl⟩ := Option.map_eq_some_iff.mp hfirst
          obtain ⟨bodies, rfl, rfl⟩ := ih hrest
          exact ⟨decoded.toList :: bodies, by rw [decodeLine_eq_some.mp hdecoded]; rfl, rfl⟩

/-- When all lines of a source can be read, its bytes are those of the texts of its lines, and its
characters are these texts with a newline each. -/
theorem texts_of_characters {chars : List (Located Char)}
    (h : (ofBytes name bytes).characters = chars.map some) :
    ∃ texts : List (List Char), Joins bytes.data.toList (texts.map encode) ∧
      textOf chars = texts.flatMap (· ++ ['\n']) := by
  obtain ⟨lines, hlines, htext⟩ := lines_of_characters h
  obtain ⟨texts, hbytes, rfl⟩ := decoded_lines hlines
  refine ⟨texts, ?_, by rw [htext, List.flatMap_def]⟩
  rw [← hbytes]
  exact cutLines_joins List.not_mem_nil

end Reading

end AccumulatorC
