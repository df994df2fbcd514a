import AccumulatorC.Proofs.Text.Decoding

/-!
# The ends of lines

The lines of a text hold all of its characters, except for a carriage return just in front of a
newline; and the last line gets a newline where the text has none.
-/

namespace AccumulatorC

/-! ## Lines of characters -/

/-- Closes a line of characters collected in reverse, as `closeLine` closes one of bytes. -/
def closeText : List Char → List Char
  | '\r' :: reversed => reversed.reverse
  | reversed => reversed.reverse

/-- Cuts characters at newlines, given the reversed characters of the line begun. -/
def textLines (reversed : List Char) : List Char → List (List Char)
  | [] => if reversed.isEmpty then [] else [reversed.reverse]
  | c :: rest =>
      if c = '\n' then closeText reversed :: textLines [] rest
      else textLines (c :: reversed) rest

theorem mem_of_mem_closeText {c : Char} {reversed : List Char} (h : c ∈ closeText reversed) :
    c ∈ reversed := by
  unfold closeText at h
  split at h
  next => exact List.mem_cons_of_mem _ (List.mem_reverse.mp h)
  next => exact List.mem_reverse.mp h

theorem encode_append (first second : List Char) :
    encode (first ++ second) = encode first ++ encode second := List.flatMap_append

theorem encode_cons (c : Char) (rest : List Char) :
    encode (c :: rest) = String.utf8EncodeChar c ++ encode rest := List.flatMap_cons

theorem encode_singleton (c : Char) : encode [c] = String.utf8EncodeChar c :=
  List.flatMap_singleton _ _

theorem encode_eq_nil {text : List Char} : encode text = [] ↔ text = [] := by
  cases text with
  | nil => exact iff_of_true rfl rfl
  | cons c rest =>
      rw [encode_cons]
      exact iff_of_false (List.append_ne_nil_of_left_ne_nil String.utf8EncodeChar_ne_nil _)
        (List.cons_ne_nil _ _)

theorem closeLine_of_ne {byte : UInt8} {before : List UInt8} (h : byte ≠ 13) :
    closeLine (byte :: before) = (byte :: before).reverse :=
  closeLine.eq_2 _ fun _ hcons => h (List.cons.inj hcons).1

theorem closeText_of_ne {c : Char} {before : List Char} (h : c ≠ '\r') :
    closeText (c :: before) = (c :: before).reverse :=
  closeText.eq_2 _ fun _ hcons => h (List.cons.inj hcons).1

/-- The last byte of a line tells whether its last character is a carriage return. -/
theorem closeLine_encode (reversed : List Char) :
    closeLine (encode reversed.reverse).reverse = encode (closeText reversed) := by
  cases reversed with
  | nil => rfl
  | cons c before =>
      by_cases hc : c = '\r'
      · have hbyte : (encode ['\r']).reverse = [13] := rfl
        rw [hc, List.reverse_cons, encode_append, List.reverse_append, hbyte,
          List.singleton_append, closeLine, closeText, List.reverse_reverse]
      · obtain ⟨byte, bytes, hbytes⟩ : ∃ byte bytes, (encode [c]).reverse = byte :: bytes := by
          apply List.exists_cons_of_ne_nil
          simp [encode_eq_nil]
        have hmem : byte ∈ encode [c] := by
          rw [← List.mem_reverse, hbytes]
          exact List.mem_cons_self
        have hbyte : byte ≠ 13 := by
          rintro rfl
          rw [encode_singleton, byte_mem_utf8EncodeChar (by decide)] at hmem
          exact hc (Char.toNat_inj.mp hmem)
        rw [closeText_of_ne hc, List.reverse_cons, encode_append, List.reverse_append, hbytes,
          List.cons_append, closeLine_of_ne hbyte, ← List.cons_append, ← hbytes,
          ← List.reverse_append, List.reverse_reverse]

theorem cutLines_append {reversed bytes more : List UInt8} (h : 10 ∉ bytes) :
    cutLines reversed (bytes ++ more) = cutLines (bytes.reverse ++ reversed) more := by
  induction bytes generalizing reversed with
  | nil => rfl
  | cons byte rest ih =>
      obtain ⟨hbyte, hrest⟩ := List.ne_and_not_mem_of_not_mem_cons h
      rw [List.cons_append, cutLines, if_neg hbyte.symm, ih hrest, List.reverse_cons,
        List.append_assoc, List.singleton_append]

/-- The lines of bytes are those of the characters that they encode. -/
theorem cutLines_encode (reversed text : List Char) :
    cutLines (encode reversed.reverse).reverse (encode text) =
      (textLines reversed text).map encode := by
  induction text generalizing reversed with
  | nil =>
      have hnil : encode [] = [] := rfl
      rw [hnil, cutLines, textLines]
      cases reversed with
      | nil => rfl
      | cons c before => simp [encode_eq_nil]
  | cons c rest ih =>
      rw [encode_cons, textLines]
      by_cases hc : c = '\n'
      · have hbytes : String.utf8EncodeChar '\n' = [10] := rfl
        rw [if_pos hc, hc, hbytes, List.singleton_append, cutLines, if_pos rfl, closeLine_encode,
          List.map_cons]
        exact congrArg _ (ih [])
      · have hbytes : 10 ∉ String.utf8EncodeChar c := mt newline_mem_utf8EncodeChar.mp hc
        rw [if_neg hc, cutLines_append hbytes, ← ih, List.reverse_cons, encode_append,
          List.reverse_append, encode_singleton]

/-! ## The characters that are read -/

/-- The characters of a text without the carriage returns just in front of a newline. -/
def unreturned : List Char → List Char
  | [] => []
  | c :: rest => if c = '\r' ∧ rest.head? = some '\n' then unreturned rest else c :: unreturned rest

theorem unreturned_cons (c : Char) (rest : List Char) :
    unreturned (c :: rest) = c :: unreturned rest ∨
      c = '\r' ∧ rest.head? = some '\n' ∧ unreturned (c :: rest) = unreturned rest := by
  rw [unreturned]
  split
  next h => exact .inr ⟨h.1, h.2, rfl⟩
  next => exact .inl rfl

theorem unreturned_of_ne {c : Char} {rest : List Char} (h : c ≠ '\r') :
    unreturned (c :: rest) = c :: unreturned rest := if_neg fun hboth => h hboth.1

theorem head?_unreturned (text : List Char) :
    (unreturned text).head? = text.head? ∨ (unreturned text).head? = some '\n' := by
  cases text with
  | nil => exact .inl rfl
  | cons c rest =>
      obtain hkeep | ⟨-, hhead, hdrop⟩ := unreturned_cons c rest
      · exact .inl (hkeep ▸ rfl)
      · obtain ⟨after, rfl⟩ := List.head?_eq_some_iff.mp hhead
        rw [hdrop, unreturned_of_ne (by decide)]
        exact .inr rfl

/-- Texts are read one after the other, unless they meet between a carriage return and its
newline. -/
theorem unreturned_append {first second : List Char}
    (h : first.getLast? = some '\r' → second.head? ≠ some '\n') :
    unreturned (first ++ second) = unreturned first ++ unreturned second := by
  induction first with
  | nil => rfl
  | cons c rest ih =>
      cases rest with
      | nil =>
          have hmeet : ¬(c = '\r' ∧ second.head? = some '\n') :=
            fun hboth => h (congrArg some hboth.1) hboth.2
          rw [List.singleton_append, unreturned, if_neg hmeet]
          simp [unreturned]
      | cons next rest =>
          have hhead : (next :: rest ++ second).head? = (next :: rest).head? := rfl
          rw [List.cons_append, unreturned, hhead, ih (List.getLast?_cons_cons ▸ h),
            unreturned.eq_2 c]
          split <;> rfl

theorem unreturned_of_not_mem {text : List Char} (h : '\n' ∉ text) : unreturned text = text := by
  induction text with
  | nil => rfl
  | cons c rest ih =>
      obtain ⟨-, hrest⟩ := List.ne_and_not_mem_of_not_mem_cons h
      rw [unreturned, ih hrest, if_neg]
      exact fun hboth => hrest (List.mem_of_mem_head? hboth.2)

/-- A line loses one carriage return at its end. -/
theorem unreturned_line {reversed rest : List Char} (h : '\n' ∉ reversed) :
    unreturned (reversed.reverse ++ '\n' :: rest) =
      closeText reversed ++ '\n' :: unreturned rest := by
  have hnewline : unreturned ('\n' :: rest) = '\n' :: unreturned rest :=
    unreturned_of_ne (by decide)
  cases reversed with
  | nil => exact hnewline
  | cons c before =>
      obtain ⟨hne, hbefore⟩ := List.ne_and_not_mem_of_not_mem_cons h
      have hread : unreturned before.reverse = before.reverse :=
        unreturned_of_not_mem (mt List.mem_reverse.mp hbefore)
      rw [List.reverse_cons, List.append_assoc, List.singleton_append]
      by_cases hc : c = '\r'
      · have hreturn : unreturned ('\r' :: '\n' :: rest) = unreturned ('\n' :: rest) :=
          if_pos ⟨rfl, rfl⟩
        rw [hc, unreturned_append (fun _ => by simp), hread, hreturn, hnewline]
        rfl
      · have hhead : (c :: '\n' :: rest).head? ≠ some '\n' := by simpa using Ne.symm hne
        rw [unreturned_append (fun _ => hhead), hread, unreturned_of_ne hc, hnewline,
          closeText_of_ne hc, List.reverse_cons, List.append_assoc]
        rfl

/-- What is read from a text: its characters, and a newline after the last line if need be. -/
theorem flatMap_textLines {reversed : List Char} (h : '\n' ∉ reversed) (text : List Char) :
    ∃ tail, (tail = [] ∨ tail = ['\n']) ∧
      (textLines reversed text).flatMap (· ++ ['\n']) =
        unreturned (reversed.reverse ++ text) ++ tail := by
  induction text generalizing reversed with
  | nil =>
      rw [List.append_nil, unreturned_of_not_mem (mt List.mem_reverse.mp h), textLines]
      cases reversed with
      | nil => exact ⟨[], .inl rfl, rfl⟩
      | cons c before => exact ⟨['\n'], .inr rfl, by simp⟩
  | cons c rest ih =>
      rw [textLines]
      by_cases hc : c = '\n'
      · obtain ⟨tail, htail, hrest⟩ := ih (List.not_mem_nil)
        refine ⟨tail, htail, ?_⟩
        rw [if_pos hc, hc, List.flatMap_cons, hrest, unreturned_line h]
        simp
      · have hline : '\n' ∉ c :: reversed := by simp [Ne.symm hc, h]
        obtain ⟨tail, htail, hrest⟩ := ih hline
        refine ⟨tail, htail, ?_⟩
        rw [if_neg hc, hrest, List.reverse_cons, List.append_assoc, List.singleton_append]

namespace Reading

/-- A text is read line by line: its lines, one after the other, are its characters. -/
theorem lines_of_text (name : String) (text : List Char) :
    ∃ (lines : List (List Char)) (tail : List Char),
      (ofBytes name (String.ofList text).toUTF8).lines = lines.map some ∧
        (∀ line ∈ lines, IsLine line) ∧ (tail = [] ∨ tail = ['\n']) ∧
        lines.flatten = unreturned text ++ tail := by
  obtain ⟨tail, htail, hflat⟩ := flatMap_textLines List.not_mem_nil text
  have hlines : (ofBytes name (String.ofList text).toUTF8).lines =
      ((textLines [] text).map (· ++ ['\n'])).map some := by
    have hbytes : (String.ofList text).toUTF8.data.toList = encode text := by
      rw [toUTF8_eq_encode, List.data_toByteArray, String.toList_ofList]
    have hcut : cutLines [] (encode text) = (textLines [] text).map encode := cutLines_encode [] text
    have hdecode : ∀ line : List Char, decodeLine (encode line) = some (String.ofList line) :=
      fun line => decodeLine_eq_some.mpr (by rw [String.toList_ofList])
    rw [ofBytes, ofLines, readLines, hbytes, hcut]
    simp [hdecode]
  refine ⟨_, tail, hlines, ?_, htail, ?_⟩
  · intro line hmem
    apply isLine_of_mem
    rw [hlines]
    exact List.mem_map_of_mem hmem
  · rw [← List.flatMap_def, hflat]
    rfl

end Reading

end AccumulatorC
