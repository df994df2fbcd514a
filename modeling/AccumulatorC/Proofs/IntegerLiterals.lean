import Mathlib.Data.List.Induction
import Mathlib.Data.Nat.Digits.Defs
import AccumulatorC.Proofs.TokenCoverage

/-!
# Integer literals

An integer literal is a number in decimal digits, or in hexadecimal ones behind a sign. However many
digits it has, it is read as the number that they denote in their base, or as an error if this number
is larger than the largest integer. On the way there are no more than 32 bits at any digit.
-/

namespace AccumulatorC

/-! ## Literals and what they denote -/

/-- The base, the digits and the text of an integer literal. -/
inductive IntegerText : UInt32 → List Char → List Char → Prop
  | decimal {digits : List Char} (hne : digits ≠ []) (hdigits : ∀ c ∈ digits, c.isDigit = true) :
      IntegerText 10 digits digits
  | hexadecimal {x : Char} {digits : List Char} (hx : x = 'x' ∨ x = 'X') (hne : digits ≠ [])
      (hdigits : ∀ c ∈ digits, Lexeme.isHexDigit c = true) :
      IntegerText 16 digits ('0' :: x :: digits)

/-- What follows a text does not extend it: no integer literal goes on with the next character. -/
def Unextended (text after : List Char) : Prop :=
  ∀ c ∈ after.head?, ∀ more base digits, ¬IntegerText base digits (text ++ c :: more)

/-- The place of a digit, in either case, among the digits in order. -/
def placeOfDigit (c : Char) : Nat := "0123456789abcdef".toList.idxOf c.toLower

/-- The number that digits denote in a base: the sum of their values, each times the power of the base
that belongs to its distance from the last one. -/
def denoted (base : Nat) (digits : List Char) : Nat :=
  Nat.ofDigits base (digits.reverse.map placeOfDigit)

theorem denoted_concat (base : Nat) (digits : List Char) (c : Char) :
    denoted base (digits ++ [c]) = placeOfDigit c + base * denoted base digits := by
  rw [denoted, List.reverse_append, List.reverse_singleton, List.singleton_append, List.map_cons,
    Nat.ofDigits_cons]
  rfl

theorem placeOfDigit_eq {c : Char} (h : Lexeme.isHexDigit c = true) :
    placeOfDigit c = Lexeme.digitValue c := by
  have hall : ∀ c ∈ Lexeme.hexDigits, placeOfDigit c = Lexeme.digitValue c :=
    List.all_iff_forall_prop.mp (by decide)
  exact hall c (Lexeme.mem_hexDigits h)

/-- What is added up digit by digit is what the digits denote. -/
theorem numeral_eq_denoted (base : Nat) {digits : List Char}
    (h : ∀ c ∈ digits, Lexeme.isHexDigit c = true) :
    Lexeme.numeral base digits = denoted base digits := by
  induction digits using List.reverseRecOn with
  | nil => rfl
  | append_singleton digits c ih =>
      obtain ⟨hdigits, hc⟩ := List.forall_mem_append.mp h
      rw [denoted_concat, ← ih hdigits, placeOfDigit_eq (hc c List.mem_cons_self), Lexeme.numeral,
        List.foldl_append, Nat.add_comm]
      rfl

namespace IntegerText

variable {base : UInt32} {digits text after : List Char}

theorem isHexDigit (h : IntegerText base digits text) : ∀ c ∈ digits, Lexeme.isHexDigit c = true := by
  cases h with
  | decimal _ hdigits => exact fun c hmem => Lexeme.isHexDigit_of_isDigit (hdigits c hmem)
  | hexadecimal _ _ hdigits => exact hdigits

theorem base_pos (h : IntegerText base digits text) : 0 < base := by
  cases h <;> decide

theorem base_le (h : IntegerText base digits text) : base ≤ 16 := by
  cases h <;> decide

/-- The characters of a literal: hexadecimal digits, and that of the sign. -/
theorem isHexDigit_or_sign (h : IntegerText base digits text) :
    ∀ c ∈ text, Lexeme.isHexDigit c = true ∨ c = 'x' ∨ c = 'X' := by
  have hdigits := h.isHexDigit
  cases h with
  | decimal => exact fun c hmem => .inl (hdigits c hmem)
  | hexadecimal hx =>
      refine List.forall_mem_cons.mpr ⟨.inl rfl, List.forall_mem_cons.mpr ⟨.inr hx, ?_⟩⟩
      exact fun c hmem => .inl (hdigits c hmem)

theorem newline_not_mem (h : IntegerText base digits text) : '\n' ∉ text := by
  intro hmem
  rcases h.isHexDigit_or_sign _ hmem with h | h | h <;> cases h

end IntegerText

/-- A character that stands in no literal extends none. -/
theorem Unextended.of_not_mem {c : Char} (hdigit : Lexeme.isHexDigit c = false)
    (hsign : c ≠ 'x' ∧ c ≠ 'X') (text after : List Char) : Unextended text (c :: after) := by
  rintro _ hc more base digits h
  cases hc
  rcases h.isHexDigit_or_sign c (by simp) with h | h | h
  · rw [hdigit] at h
    cases h
  · exact hsign.1 h
  · exact hsign.2 h

/-! ## How they are read -/

namespace Lexeme

variable {base : UInt32} {digits after : List Char}

/-- Characters of one kind are taken as far as they go. -/
theorem takeWhile_append_stop {holds : Char → Bool} {text : List Char}
    (htext : ∀ c ∈ text, holds c = true) (hafter : ∀ c ∈ after.head?, holds c = false) :
    (text ++ after).takeWhile holds = text := by
  rw [List.takeWhile_append_of_pos htext]
  cases after with
  | nil => simp
  | cons c after => simp [hafter c rfl]

/-- A literal is read to its end, unless what follows extends it. -/
theorem read_integerText {first : Char} {rest : List Char}
    (h : IntegerText base digits (first :: rest)) (hafter : Unextended (first :: rest) after) :
    read first (rest ++ after) = integer base digits rest.length := by
  generalize htext : first :: rest = text at h hafter
  cases h with
  | decimal hne hdigits =>
      subst htext
      obtain ⟨hfirst, hrest⟩ := List.forall_mem_cons.mp hdigits
      have hstop : ∀ c ∈ after.head?, c.isDigit = false := by
        intro c hc
        by_contra hdigit
        refine hafter c hc [] 10 _ (.decimal (by simp) (List.forall_mem_append.mpr ⟨hdigits, ?_⟩))
        exact List.forall_mem_singleton.mpr (by simpa using hdigit)
      have hsign : first = '0' → ∀ c ∈ (rest ++ after).head?, c ≠ 'x' ∧ c ≠ 'X' := by
        rintro rfl c hc
        cases rest with
        | nil =>
            -- With this sign behind it, a zero goes on as a hexadecimal literal.
            have hnone : ∀ x, x = 'x' ∨ x = 'X' → c ≠ x := by
              rintro x hx rfl
              exact hafter c hc ['0'] 16 ['0'] (.hexadecimal hx (by simp) (List.all_eq_true.mp rfl))
            exact ⟨hnone 'x' (.inl rfl), hnone 'X' (.inr rfl)⟩
        | cons next rest => exact Option.some.inj hc ▸ digit_ne_x (hrest next List.mem_cons_self)
      rw [read_number hfirst, number_decimal hsign, takeWhile_append_stop hrest hstop]
  | @hexadecimal x _ hx hne hdigits =>
      obtain ⟨rfl, rfl⟩ := List.cons.inj htext
      have hstop : ∀ c ∈ after.head?, isHexDigit c = false := by
        intro c hc
        by_contra hdigit
        refine hafter c hc [] 16 (digits ++ [c]) ?_
        exact .hexadecimal hx (by simp) (List.forall_mem_append.mpr
          ⟨hdigits, List.forall_mem_singleton.mpr (by simpa using hdigit)⟩)
      rw [read_number rfl, List.cons_append, number_hexadecimal hx,
        takeWhile_append_stop hdigits hstop, if_neg hne, List.length_cons]

/-- A digit more is added without leaving 32 bits. -/
theorem accumulateAll_concat {text before later : List Char} {c : Char}
    (h : IntegerText base (before ++ c :: later) text)
    (hfits : denoted base.toNat before < 65536) :
    ∃ value next, accumulateAll base 0 before = .ok value ∧
      value.toNat = denoted base.toNat before ∧
      (product? value base).bind (sum? · (digitValue c).toUInt32) = some next ∧
      next.toNat = denoted base.toNat (before ++ [c]) := by
  obtain ⟨hbefore, hrest⟩ := List.forall_mem_append.mp h.isHexDigit
  have hdigit := hrest c List.mem_cons_self
  have hbelow := digitValue_lt hdigit
  have hvalue : (UInt32.ofNat (denoted base.toNat before)).toNat = denoted base.toNat before :=
    Nat.mod_eq_of_lt (Nat.lt_trans hfits (by decide))
  have hdigitValue : (digitValue c).toUInt32.toNat = digitValue c :=
    Nat.mod_eq_of_lt (Nat.lt_trans hbelow (by decide))
  have hsmall : UInt32.ofNat (denoted base.toNat before) ≤ largestInteger := by
    rw [UInt32.le_iff_toNat_le, hvalue]
    exact Nat.le_of_lt_succ hfits
  have hone : (digitValue c).toUInt32 < 16 := by
    rw [UInt32.lt_iff_toNat_lt, hdigitValue]
    exact hbelow
  have hwithin := steps_within h.base_le hsmall hone
  refine ⟨_, _, ?_, hvalue, step_eq hwithin, ?_⟩
  · rw [accumulateAll_eq h.base_pos h.base_le hbefore, numeral_eq_denoted _ hbefore, if_pos hfits]
  · rw [hvalue, hdigitValue] at hwithin ⊢
    rw [denoted_concat, placeOfDigit_eq hdigit, Nat.add_comm (digitValue c)]
    exact Nat.mod_eq_of_lt (by rwa [Nat.mul_comm base.toNat])

end Lexeme

namespace IntegerText

variable {base : UInt32} {digits text after : List Char}

theorem exists_cons (h : IntegerText base digits text) : ∃ first rest, text = first :: rest := by
  cases h with
  | decimal hne => exact List.exists_cons_of_ne_nil hne
  | hexadecimal => exact ⟨_, _, rfl⟩

/-- The lexeme of a literal: the number that its digits denote, or an error. -/
theorem lexeme_eq (h : IntegerText base digits text) (more : Nat) :
    Lexeme.integer base digits more =
      if denoted base.toNat digits < 65536 then
        .token (.integer (UInt16.ofNat (denoted base.toNat digits))) more
      else .error .integerOverflow := by
  rw [Lexeme.integer_eq h.base_pos h.base_le h.isHexDigit, numeral_eq_denoted _ h.isHexDigit]

section Cutting

variable (source : Source) (start : Location) (p : Position)

/-- A literal that is not too large is cut off as a token, and cutting goes on behind it. -/
theorem cutLine_fits (h : IntegerText base digits text) (hafter : Unextended text after)
    (hfits : denoted base.toNat digits ≤ 65535) :
    cutLine source start p (text ++ after) =
      (.ok ⟨.integer (UInt16.ofNat (denoted base.toNat digits)),
          spanFrom source p (text ++ after) (text.length - 1)⟩ ::
        (cutLine source (.cell source p) (p.afterAll text) after).1,
      (cutLine source (.cell source p) (p.afterAll text) after).2) := by
  obtain ⟨first, rest, rfl⟩ := h.exists_cons
  have hread := Lexeme.read_integerText h hafter
  rw [h.lexeme_eq, if_pos (Nat.lt_succ_of_le hfits)] at hread
  rw [List.cons_append, cutLine]
  simp only [hread, List.take_left, List.drop_left, List.length_cons, Nat.add_sub_cancel]

/-- A literal that is too large gives one error, and the rest of its line is given up. -/
theorem cutLine_overflows (h : IntegerText base digits text) (hafter : Unextended text after)
    (hlarge : 65535 < denoted base.toNat digits) :
    cutLine source start p (text ++ after) =
      ([.error ⟨.integerOverflow, .cell source p⟩], ⟨.fresh, .cell source p⟩) := by
  obtain ⟨first, rest, rfl⟩ := h.exists_cons
  have hread := Lexeme.read_integerText h hafter
  rw [h.lexeme_eq, if_neg (by omega)] at hread
  rw [List.cons_append, cutLine]
  simp only [hread]

end Cutting

end IntegerText

/-! ## Sources and literals -/

/-- A single line with no comment open at its end gives the items that are cut off it. -/
theorem cutLinesFrom_single {source : Source} {number : Nat} {start stop : Location}
    {line : List Char} {items : List LexItem}
    (h : cutLine source start ⟨number, 1⟩ line = (items, ⟨.fresh, stop⟩)) :
    cutLinesFrom source number ⟨.fresh, start⟩ [some line] = items := by
  simp [cutLinesFrom, enterLine, h]

namespace Reading

/-- The items of a source that is one literal: a token, or one error. -/
theorem items_of_integerText (name : String) {base : UInt32} {digits text : List Char}
    (h : IntegerText base digits text) :
    (ofBytes name (String.ofList text).toUTF8).items =
      [if denoted base.toNat digits ≤ 65535 then
        .ok ⟨.integer (UInt16.ofNat (denoted base.toNat digits)),
          spanFrom ⟨name, [String.ofList text]⟩ .first (text ++ ['\n']) (text.length - 1)⟩
      else .error ⟨.integerOverflow, .cell ⟨name, [String.ofList text]⟩ .first⟩] := by
  obtain ⟨first, rest, htext⟩ := h.exists_cons
  have hnext : Unextended text ['\n'] := Unextended.of_not_mem rfl (by decide) text []
  have hlines : ofBytes name (String.ofList text).toUTF8 =
      ⟨⟨name, [String.ofList text]⟩, [some (text ++ ['\n'])]⟩ := by
    rw [ofBytes, readLines_of_line (htext ▸ List.cons_ne_nil first rest) h.newline_not_mem]
    simp [ofLines]
  rw [hlines]
  split
  next hfits =>
    apply cutLinesFrom_single
    rw [h.cutLine_fits _ _ _ hnext hfits, cutLine_blank _ _ _ rfl, cutLine]
    rfl
  next hlarge =>
    apply cutLinesFrom_single
    rw [h.cutLine_overflows _ _ _ hnext (Nat.lt_of_not_le hlarge)]
    rfl

end Reading

/-- An integer literal with nothing behind it that extends it is cut off its line as the number that
its digits denote if this is at most the largest integer, and as one error otherwise; alone in a
source it gives this token or this error only. While the digits that are read so far denote an
integer, they have been added up exactly, and the next digit is added without leaving 32 bits. -/
theorem IntegerText.read_exactly {base : UInt32} {digits text after : List Char}
    (h : IntegerText base digits text) (hafter : Unextended text after)
    (source : Source) (start : Location) (p : Position) (name : String) :
    (denoted base.toNat digits ≤ 65535 → ∃ value : UInt16, value.toNat = denoted base.toNat digits ∧
      (cutLine source start p (text ++ after) =
        (.ok ⟨.integer value, spanFrom source p (text ++ after) (text.length - 1)⟩ ::
          (cutLine source (.cell source p) (p.afterAll text) after).1,
        (cutLine source (.cell source p) (p.afterAll text) after).2)) ∧
      ∃ location, (Reading.ofBytes name (String.ofList text).toUTF8).tokens =
        .ok [⟨.integer value, location⟩]) ∧
    (65535 < denoted base.toNat digits →
      cutLine source start p (text ++ after) =
        ([.error ⟨.integerOverflow, .cell source p⟩], ⟨.fresh, .cell source p⟩) ∧
      (Reading.ofBytes name (String.ofList text).toUTF8).tokens =
        .error [⟨.integerOverflow, .cell ⟨name, [String.ofList text]⟩ .first⟩]) ∧
    ∀ before c later, digits = before ++ c :: later → denoted base.toNat before ≤ 65535 →
      ∃ value next, Lexeme.accumulateAll base 0 before = .ok value ∧
        value.toNat = denoted base.toNat before ∧
        (Lexeme.product? value base).bind (Lexeme.sum? · (Lexeme.digitValue c).toUInt32) =
          some next ∧
        next.toNat = denoted base.toNat (before ++ [c]) := by
  have hitems := Reading.items_of_integerText name h
  refine ⟨fun hfits => ⟨_, ?_, h.cutLine_fits source start p hafter hfits, ?_⟩,
    fun hlarge => ⟨h.cutLine_overflows source start p hafter hlarge, ?_⟩, ?_⟩
  · exact Nat.mod_eq_of_lt (Nat.lt_succ_of_le hfits)
  · rw [if_pos hfits] at hitems
    exact ⟨_, Reading.tokens_of_items [_] hitems⟩
  · rw [if_neg (Nat.not_le.mpr hlarge)] at hitems
    rw [Reading.tokens, hitems]
    rfl
  · rintro before c later rfl hbefore
    exact Lexeme.accumulateAll_concat h (Nat.lt_succ_of_le hbefore)

/-- The largest integer with zeros in front of it, and one more. -/
theorem padded_literals_read :
    (∃ location, (Reading.ofBytes "<input>" (String.ofList
        ['0', 'X', '0', '0', 'f', 'F', 'f', 'F']).toUTF8).tokens =
      .ok [⟨.integer 65535, location⟩]) ∧
    (Reading.ofBytes "<input>" (String.ofList ['0', '6', '5', '5', '3', '6']).toUTF8).tokens =
      .error [⟨.integerOverflow, .cell ⟨"<input>", ["065536"]⟩ .first⟩] := by
  have hhexadecimal : IntegerText 16 ['0', '0', 'f', 'F', 'f', 'F']
      ['0', 'X', '0', '0', 'f', 'F', 'f', 'F'] :=
    .hexadecimal (.inr rfl) (by simp) (List.all_eq_true.mp rfl)
  have hdecimal : IntegerText 10 ['0', '6', '5', '5', '3', '6'] ['0', '6', '5', '5', '3', '6'] :=
    .decimal (by simp) (List.all_eq_true.mp rfl)
  have hend : ∀ text, Unextended text [';'] := (Unextended.of_not_mem rfl (by decide) · [])
  have hfits := IntegerText.read_exactly hhexadecimal (hend _) ⟨"<input>", []⟩
    (.cell ⟨"<input>", []⟩ .first) .first "<input>"
  have hlarge := IntegerText.read_exactly hdecimal (hend _) ⟨"<input>", []⟩
    (.cell ⟨"<input>", []⟩ .first) .first "<input>"
  obtain ⟨value, hvalue, -, location, htokens⟩ := hfits.1 (by decide)
  obtain rfl : value = 65535 := UInt16.toNat_inj.mp hvalue
  exact ⟨⟨location, htokens⟩, (hlarge.2.1 (by decide)).2⟩

end AccumulatorC
