import Mathlib.Data.List.Basic
import AccumulatorC.Proofs.Machine.Code
import AccumulatorC.Proofs.Token.Words

/-!
# How labels are written

Every label but the name of an item is written with an underscore, behind which there is no other:
what follows the last one is a number, or a word that tells the kind. So two such labels that are
written alike are the same, and only the name of an item can be written like another label.
-/

namespace AccumulatorC

/-- A text is split in one way at the last occurrence of a character. -/
theorem append_cons_inj_of_last {α : Type} {c : α} {a b a' b' : List α} (hb : c ∉ b) (hb' : c ∉ b')
    (h : a ++ c :: b = a' ++ c :: b') : a = a' ∧ b = b' := by
  have hsplit : ∀ {a a' : List α} {b b' : List α}, c ∉ b → a ++ c :: b = a' ++ c :: b' →
      ∀ extra, a' = a ++ extra → extra = [] := by
    intro a a' b b' hb h extra hextra
    rw [hextra, List.append_assoc, List.append_cancel_left_eq] at h
    cases extra with
    | nil => rfl
    | cons first extra =>
        rw [List.cons_append, List.cons.injEq] at h
        rw [h.2] at hb
        exact absurd (by simp) hb
  rcases List.append_eq_append_iff.mp h with hlonger | hshorter
  · obtain ⟨extra, ha, -⟩ := hlonger
    obtain rfl := hsplit hb h extra ha
    rw [List.append_nil] at ha
    subst ha
    exact ⟨rfl, by simpa using h⟩
  · obtain ⟨extra, ha, -⟩ := hshorter
    obtain rfl := hsplit hb' h.symm extra ha
    rw [List.append_nil] at ha
    subst ha
    exact ⟨rfl, by simpa using h⟩

/-! ## Numbers -/

/-- The digits of a number. -/
def digits (n : Nat) : List Char := (toString n).toList

theorem digits_eq (n : Nat) : digits n = Nat.toDigits 10 n := by
  simp [digits]

theorem digits_injective {n m : Nat} (h : digits n = digits m) : n = m := by
  rw [digits_eq, digits_eq] at h
  have hvalue := congrArg (Nat.ofDigitChars 10 · 0) h
  simpa [Nat.ofDigitChars_ten_toDigits] using hvalue

theorem underscore_not_mem_digits (n : Nat) : '_' ∉ digits n := by
  rw [digits_eq]
  exact Nat.underscore_not_in_toDigits

/-- A number is not written like a word. -/
theorem digits_ne_cons {n : Nat} {c : Char} {rest : List Char} (hc : c.isDigit = false) :
    digits n ≠ c :: rest := by
  intro h
  have hmem : c ∈ Nat.toDigits 10 n := by
    rw [← digits_eq, h]
    exact List.mem_cons_self
  have hdigit := Nat.isDigit_of_mem_toDigits (by decide) (by decide) hmem
  rw [hc] at hdigit
  cases hdigit

/-! ## Before and behind the last underscore -/

namespace Label

def isSymbol : Label → Bool
  | symbol _ => true
  | _ => false

theorem eq_symbol {l : Label} (h : l.isSymbol = true) : ∃ name, l = symbol name := by
  cases l with
  | symbol name => exact ⟨name, rfl⟩
  | _ => cases h

/-- Whether a label belongs to a function. -/
def isDotted : Label → Bool
  | inner _ _ _ | string true _ | stringEnd true _ => true
  | _ => false

/-- What is written before the last underscore of a label that is no symbol. -/
def stem : Label → List Char
  | entry | halt => ['_']
  | heap => "heap".toList
  | symbol name => name.toList
  | exit function => function.toList
  | inner family role _ => '.' :: (family.text.toList ++ '_' :: role.text.toList)
  | string inside _ => (dot inside).toList ++ "string".toList
  | stringEnd inside _ => (dot inside).toList ++ "string_skip".toList

/-- What is written behind it. -/
def tail : Label → List Char
  | entry | heap => "start".toList
  | halt => "halt".toList
  | symbol _ => []
  | exit _ => "exit".toList
  | inner _ _ number | string _ number | stringEnd _ number => digits number

/-- A numbered label is written as a stem and a tail with an underscore between them. -/
theorem toList_text {l : Label} (h : l.isSymbol = false) : l.text.toList = l.stem ++ '_' :: l.tail := by
  cases l with
  | symbol name => cases h
  | entry => rfl
  | halt => rfl
  | heap => rfl
  | exit function =>
      show (function ++ "_exit").toList = _
      simp [stem, tail]
  | inner family role n =>
      show ("." ++ family.text ++ "_" ++ role.text ++ "_" ++ toString n).toList = _
      simp [stem, tail, digits]
  | string inside n =>
      show (dot inside ++ "string_" ++ toString n).toList = _
      simp [stem, tail, digits]
  | stringEnd inside n =>
      show (dot inside ++ "string_skip_" ++ toString n).toList = _
      simp [stem, tail, digits]

theorem underscore_not_mem_tail (l : Label) : '_' ∉ l.tail := by
  cases l with
  | inner _ _ n => exact underscore_not_mem_digits n
  | string _ n => exact underscore_not_mem_digits n
  | stringEnd _ n => exact underscore_not_mem_digits n
  | symbol name => simp [tail]
  | exit function => simp [tail]
  | _ => decide

theorem underscore_not_mem_role (role : Role) : '_' ∉ role.text.toList := by
  cases role <;> decide

theorem Family.text_injective {family other : Family} (h : family.text = other.text) :
    family = other := by
  cases family <;> cases other <;> first | rfl | exact absurd h (by decide)

theorem Role.text_injective {role other : Role} (h : role.text = other.text) : role = other := by
  cases role <;> cases other <;> first | rfl | exact absurd h (by decide)

/-- A label with a role is not written like a string. -/
theorem inner_ne_string {family : Family} {role : Role} {inside : Bool} :
    '.' :: (family.text.toList ++ '_' :: role.text.toList) ≠
      (dot inside).toList ++ "string".toList := by
  intro h
  have hmem : '_' ∈ (dot inside).toList ++ "string".toList := by
    rw [← h]
    simp
  cases inside <;> revert hmem <;> decide

theorem inner_ne_stringEnd {family : Family} {role : Role} {inside : Bool} :
    '.' :: (family.text.toList ++ '_' :: role.text.toList) ≠
      (dot inside).toList ++ "string_skip".toList := by
  intro h
  have hsplit : (dot inside).toList ++ "string_skip".toList =
      ((dot inside).toList ++ "string".toList) ++ '_' :: "skip".toList := by
    cases inside <;> rfl
  rw [hsplit, ← List.cons_append] at h
  have hrole := (append_cons_inj_of_last (underscore_not_mem_role role) (by decide) h).2
  revert hrole
  cases role <;> decide

theorem dot_string_injective {inside other : Bool} {text : List Char}
    (h : (dot inside).toList ++ text = (dot other).toList ++ text) : inside = other := by
  have hlength := congrArg List.length h
  cases inside <;> cases other <;> simp [dot] at hlength ⊢

theorem string_ne_stringEnd {inside other : Bool} :
    (dot inside).toList ++ "string".toList ≠ (dot other).toList ++ "string_skip".toList := by
  cases inside <;> cases other <;> decide

theorem tail_eq_digits {l : Label} {n : Nat} (h : l.number? = some n) : l.tail = digits n := by
  cases l with
  | inner => cases h; rfl
  | string => cases h; rfl
  | stringEnd => cases h; rfl
  | _ => cases h

theorem tail_eq_word {l : Label} (hl : l.isSymbol = false) (h : l.number? = none) :
    ∃ c rest, l.tail = c :: rest ∧ c.isDigit = false := by
  cases l with
  | symbol => cases hl
  | entry => exact ⟨'s', "tart".toList, rfl, by decide⟩
  | heap => exact ⟨'s', "tart".toList, rfl, by decide⟩
  | halt => exact ⟨'h', "alt".toList, rfl, by decide⟩
  | exit => exact ⟨'e', "xit".toList, rfl, by decide⟩
  | _ => cases h

/-- Labels with the same number before the last underscore of which the same is written. -/
theorem eq_of_number {l other : Label} {n : Nat} (hl : l.number? = some n)
    (hother : other.number? = some n) (hstem : l.stem = other.stem) : l = other := by
  cases l with
  | inner family role =>
      cases hl
      cases other with
      | inner family' role' =>
          cases hother
          simp only [stem, List.cons.injEq, true_and] at hstem
          obtain ⟨hfamily, hrole⟩ := append_cons_inj_of_last (underscore_not_mem_role role)
            (underscore_not_mem_role role') hstem
          rw [Family.text_injective (String.toList_inj.mp hfamily),
            Role.text_injective (String.toList_inj.mp hrole)]
      | string => exact absurd hstem inner_ne_string
      | stringEnd => exact absurd hstem inner_ne_stringEnd
      | _ => cases hother
  | string inside =>
      cases hl
      cases other with
      | inner => exact absurd hstem.symm inner_ne_string
      | string inside' =>
          cases hother
          rw [dot_string_injective hstem]
      | stringEnd => exact absurd hstem string_ne_stringEnd
      | _ => cases hother
  | stringEnd inside =>
      cases hl
      cases other with
      | inner => exact absurd hstem.symm inner_ne_stringEnd
      | string => exact absurd hstem.symm string_ne_stringEnd
      | stringEnd inside' =>
          cases hother
          rw [dot_string_injective hstem]
      | _ => cases hother
  | _ => cases hl

theorem start_ne_exit : "start".toList ≠ "exit".toList := by decide

theorem halt_ne_exit : "halt".toList ≠ "exit".toList := by decide

/-- Labels with a word behind the last underscore. -/
theorem eq_of_word {l other : Label} (hl : l.number? = none) (hother : other.number? = none)
    (hsymbol : l.isSymbol = false) (hsymbol' : other.isSymbol = false)
    (hstem : l.stem = other.stem) (htail : l.tail = other.tail) : l = other := by
  cases l with
  | exit function =>
      cases other with
      | exit function' => rw [String.toList_inj.mp hstem]
      | symbol => cases hsymbol'
      | entry => exact absurd htail.symm start_ne_exit
      | heap => exact absurd htail.symm start_ne_exit
      | halt => exact absurd htail.symm halt_ne_exit
      | _ => cases hother
  | entry =>
      cases other with
      | entry => rfl
      | symbol => cases hsymbol'
      | halt => exact absurd htail (by decide)
      | heap => exact absurd hstem (by decide)
      | exit => exact absurd htail start_ne_exit
      | _ => cases hother
  | halt =>
      cases other with
      | halt => rfl
      | symbol => cases hsymbol'
      | entry => exact absurd htail (by decide)
      | heap => exact absurd htail (by decide)
      | exit => exact absurd htail halt_ne_exit
      | _ => cases hother
  | heap =>
      cases other with
      | heap => rfl
      | symbol => cases hsymbol'
      | entry => exact absurd hstem (by decide)
      | halt => exact absurd htail (by decide)
      | exit => exact absurd htail start_ne_exit
      | _ => cases hother
  | symbol => cases hsymbol
  | _ => cases hl

/-- Two labels that carry no name of an item alone are the same when they are written alike. -/
theorem text_injective {l other : Label} (hl : l.isSymbol = false)
    (hother : other.isSymbol = false) (h : l.text = other.text) : l = other := by
  have htexts : l.stem ++ '_' :: l.tail = other.stem ++ '_' :: other.tail := by
    rw [← toList_text hl, ← toList_text hother, h]
  obtain ⟨hstem, htail⟩ := append_cons_inj_of_last (underscore_not_mem_tail l)
    (underscore_not_mem_tail other) htexts
  cases hn : l.number? with
  | some n =>
      cases hm : other.number? with
      | some m =>
          rw [tail_eq_digits hn, tail_eq_digits hm] at htail
          rw [digits_injective htail] at hn
          exact eq_of_number hn hm hstem
      | none =>
          obtain ⟨c, rest, hword, hc⟩ := tail_eq_word hother hm
          rw [tail_eq_digits hn, hword] at htail
          exact absurd htail (digits_ne_cons hc)
  | none =>
      cases hm : other.number? with
      | some m =>
          obtain ⟨c, rest, hword, hc⟩ := tail_eq_word hl hn
          rw [tail_eq_digits hm, hword] at htail
          exact absurd htail.symm (digits_ne_cons hc)
      | none => exact eq_of_word hn hm hl hother hstem htail

/-! ## Dots -/

end Label

/-- Whether a name belongs to the last label without a dot. -/
def beginsWithDot (name : String) : Bool := name.toList.head? == some '.'

theorem IsWord.beginsWithDot_eq_false {name : String} (h : IsWord name) :
    beginsWithDot name = false := by
  obtain ⟨first, rest, hname, hfirst, -⟩ := h
  have hdot : first ≠ '.' := by
    rintro rfl
    exact absurd hfirst (by decide)
  simpa [beginsWithDot, hname] using hdot

/-- A label whose names are words. -/
def Label.Worded : Label → Prop
  | symbol name | exit name => IsWord name
  | _ => True

/-- The text of a label begins with a dot exactly if the label is local. -/
theorem Label.beginsWithDot_text {l : Label} (h : l.Worded) : beginsWithDot l.text = l.isDotted := by
  cases l with
  | symbol name => exact IsWord.beginsWithDot_eq_false h
  | exit function =>
      obtain ⟨first, rest, hname, -⟩ := id h
      have hsame : beginsWithDot (exit function).text = beginsWithDot function := by
        rw [beginsWithDot, toList_text rfl, beginsWithDot, stem, hname]
        rfl
      rw [hsame]
      exact IsWord.beginsWithDot_eq_false h
  | inner family role n =>
      rw [beginsWithDot, toList_text rfl]
      rfl
  | string inside n =>
      rw [beginsWithDot, toList_text rfl]
      cases inside <;> rfl
  | stringEnd inside n =>
      rw [beginsWithDot, toList_text rfl]
      cases inside <;> rfl
  | _ => decide

end AccumulatorC
