import Mathlib.Data.List.Induction
import Mathlib.Logic.Function.Basic
import AccumulatorC.Ty.Conversion

/-!
# How types are written

Stars and parameter lists follow the type that they belong to, so the text of a type is read from its
end: its last character tells how the type is built, and what stands before it splits in one way only.
Hence no text ends with the texts of two types, and a message that shows two types tells which ones.
-/

namespace AccumulatorC

namespace Ty

/-! ## Texts from their ends -/

/-- The text of a type from its end. -/
def backwards (t : Ty) : List Char := t.text.toList.reverse

/-- The text of a list of types from its end. -/
def listBackwards (types : List Ty) : List Char := (listText types).toList.reverse

@[simp] theorem backwards_void : void.backwards = ['d', 'i', 'o', 'v'] := rfl

@[simp] theorem backwards_char : char.backwards = ['r', 'a', 'h', 'c'] := rfl

@[simp] theorem backwards_int : int.backwards = ['t', 'n', 'i'] := rfl

@[simp] theorem backwards_pointer (base : Ty) : (pointer base).backwards = '*' :: base.backwards := by
  rw [backwards, text, String.toList_append, List.reverse_append]
  rfl

/-- Read from its end, the text of a function type begins with its parameters. -/
@[simp] theorem backwards_function (result : Ty) (parameters : List Ty) :
    (function result parameters).backwards =
      ')' :: (listBackwards parameters ++ '(' :: result.backwards) := by
  have hopen : "(".toList = ['('] := rfl
  have hclose : ")".toList = [')'] := rfl
  rw [backwards, text, String.toList_append, String.toList_append, String.toList_append, hopen, hclose]
  simp [backwards, listBackwards]

@[simp] theorem listBackwards_nil : listBackwards [] = [] := rfl

theorem listText_cons {rest : List Ty} (h : rest ≠ []) (first : Ty) :
    listText (first :: rest) = first.text ++ ", " ++ listText rest :=
  listText.eq_3 _ _ h

theorem listText_concat {init : List Ty} (h : init ≠ []) (last : Ty) :
    listText (init ++ [last]) = listText init ++ ", " ++ last.text := by
  induction init with
  | nil => exact absurd rfl h
  | cons first rest ih =>
      rw [List.cons_append, listText_cons (by simp)]
      by_cases hrest : rest = []
      · rw [hrest, List.nil_append, listText, listText]
      · rw [ih hrest, listText_cons hrest]
        simp only [String.append_assoc]

/-- What stands in front of the last one of a list of types, from its end: nothing or a comma behind
the others. -/
def listBefore : List Ty → List Char
  | [] => []
  | first :: rest => ' ' :: ',' :: listBackwards (first :: rest)

/-- The last of several types comes first when their texts are read from the end. -/
@[simp] theorem listBackwards_concat (init : List Ty) (last : Ty) :
    listBackwards (init ++ [last]) = last.backwards ++ listBefore init := by
  cases init with
  | nil => rw [List.nil_append, listBackwards, listText, listBefore, List.append_nil, backwards]
  | cons first rest =>
      have hcomma : ", ".toList = [',', ' '] := rfl
      rw [listBackwards, listText_concat (List.cons_ne_nil _ _), String.toList_append,
        String.toList_append, hcomma, listBefore]
      simp [backwards, listBackwards]

/-! ## Unique readability -/

/-- A text that ends with this type ends with no other one. -/
def EndsAlone (s : Ty) : Prop :=
  ∀ (t : Ty) (x y : List Char), s.backwards ++ x = t.backwards ++ y → s = t ∧ x = y

/-- A list of types and the parenthesis that opens it are read in one way if the types are. -/
theorem eq_of_listBackwards {types others : List Ty} {x y : List Char}
    (hends : ∀ t ∈ types, t.EndsAlone)
    (h : listBackwards types ++ '(' :: x = listBackwards others ++ '(' :: y) :
    types = others ∧ x = y := by
  -- The last type is read first, so the induction takes types off the end of the list.
  induction types using List.reverseRecOn generalizing others x y with
  | nil =>
      rcases List.eq_nil_or_concat others with rfl | ⟨init, last, rfl⟩
      · exact ⟨rfl, (List.cons.inj h).2⟩
      · -- No type ends with an opening parenthesis.
        cases last <;> simp at h
  | append_singleton init last ih =>
      rcases List.eq_nil_or_concat others with rfl | ⟨others, other, rfl⟩
      · cases last <;> simp at h
      · have hinit : ∀ t ∈ init, t.EndsAlone := fun t ht => hends t (List.mem_append_left _ ht)
        rw [List.concat_eq_append, listBackwards_concat, listBackwards_concat, List.append_assoc,
          List.append_assoc] at h
        obtain ⟨rfl, hbefore⟩ := hends last (by simp) _ _ _ h
        suffices init = others ∧ x = y by simpa using this
        -- A parenthesis is next if that was the only type, and a separator if it was not.
        cases init with
        | nil =>
            cases others with
            | nil => exact ⟨rfl, (List.cons.inj hbefore).2⟩
            | cons => simp [listBefore] at hbefore
        | cons first rest =>
            cases others with
            | nil => simp [listBefore] at hbefore
            | cons => exact ih hinit (by simpa [listBefore] using hbefore)

theorem EndsAlone.pointer {base : Ty} (hbase : base.EndsAlone) : (pointer base).EndsAlone := by
  intro t x y h
  cases t with
  | pointer other =>
      rw [backwards_pointer, backwards_pointer] at h
      obtain ⟨rfl, hrest⟩ := hbase _ _ _ (List.cons.inj h).2
      exact ⟨rfl, hrest⟩
  | _ => simp at h

theorem EndsAlone.function {result : Ty} {parameters : List Ty} (hresult : result.EndsAlone)
    (hparameters : ∀ t ∈ parameters, t.EndsAlone) : (function result parameters).EndsAlone := by
  intro t x y h
  cases t with
  | function other others =>
      simp only [backwards_function, List.cons_append, List.append_assoc, List.cons.injEq,
        true_and] at h
      obtain ⟨rfl, hopened⟩ := eq_of_listBackwards hparameters h
      obtain ⟨rfl, hrest⟩ := hresult _ _ _ hopened
      exact ⟨rfl, hrest⟩
  | _ => simp at h

mutual

theorem endsAlone : ∀ t : Ty, t.EndsAlone
  | .void | .char | .int => by
      intro t x y h
      cases t <;> simp at h
      exact ⟨rfl, h⟩
  | .pointer base => (endsAlone base).pointer
  | .function result parameters => (endsAlone result).function (endsAlone_of_mem parameters)

theorem endsAlone_of_mem : ∀ types : List Ty, ∀ t ∈ types, t.EndsAlone
  | [] => nofun
  | first :: rest => List.forall_mem_cons.mpr ⟨endsAlone first, endsAlone_of_mem rest⟩

end

/-- Of a text that ends with a type, both the type and what stands before it are known. -/
theorem eq_of_append_text {s t : Ty} {x y : String} (h : x ++ s.text = y ++ t.text) :
    x = y ∧ s = t := by
  have hback : s.backwards ++ x.toList.reverse = t.backwards ++ y.toList.reverse := by
    rw [backwards, backwards, ← List.reverse_append, ← List.reverse_append, ← String.toList_append,
      ← String.toList_append, h]
  obtain ⟨hst, hxy⟩ := endsAlone s _ _ _ hback
  exact ⟨String.toList_inj.mp (List.reverse_inj.mp hxy), hst⟩

theorem text_injective : Function.Injective text := fun _ _ h =>
  (eq_of_append_text (congrArg ("" ++ ·) h)).2

/-- Of a text that shows two types, both are known, and the words in front of them as well. -/
theorem eq_of_shown {lead lead' link tail : String} {s s' t t' : Ty}
    (h : lead ++ s.text ++ link ++ t.text ++ tail = lead' ++ s'.text ++ link ++ t'.text ++ tail) :
    lead = lead' ∧ s = s' ∧ t = t' := by
  have hsecond := eq_of_append_text ((String.append_left_inj _).mp h)
  have hfirst := eq_of_append_text ((String.append_left_inj _).mp hsecond.1)
  exact ⟨hfirst.1, hfirst.2, hsecond.2⟩

/-- A text that shows two types tells which word joins them. -/
theorem and_ne_to (x y : String) (t t' : Ty) :
    x ++ "` and `" ++ t.text ++ "`" ≠ y ++ "` to `" ++ t'.text ++ "`" := by
  intro h
  obtain ⟨hlinks, -⟩ := eq_of_append_text ((String.append_left_inj _).mp h)
  have hback := congrArg (fun text : String => text.toList.reverse) hlinks
  simp at hback

end Ty

/-! ## Messages -/

/-- Different errors about types have different messages. -/
theorem TypeError.message_injective : Function.Injective message := by
  intro e e' h
  cases e with
  | mismatch left right =>
      cases e' with
      | mismatch left' right' =>
          obtain ⟨-, rfl, rfl⟩ := Ty.eq_of_shown h
          rfl
      | assignment target value => exact absurd h (Ty.and_ne_to _ _ _ _)
  | assignment target value =>
      cases e' with
      | mismatch left right => exact absurd h.symm (Ty.and_ne_to _ _ _ _)
      | assignment target' value' =>
          obtain ⟨-, rfl, rfl⟩ := Ty.eq_of_shown h
          rfl

/-- Different conversions have different messages. -/
theorem Conversion.message_injective : Function.Injective message := by
  intro c c' h
  cases c with
  | pointerInteger value target =>
      cases c' with
      | pointerInteger value' target' =>
          obtain ⟨-, rfl, rfl⟩ := Ty.eq_of_shown h
          rfl
      | pointerMismatch left right => exact absurd (Ty.eq_of_shown h).1 (by decide)
      | narrowing value' target' => exact absurd h (Ty.and_ne_to _ _ _ _)
  | pointerMismatch left right =>
      cases c' with
      | pointerInteger value target => exact absurd (Ty.eq_of_shown h).1 (by decide)
      | pointerMismatch left' right' =>
          obtain ⟨-, rfl, rfl⟩ := Ty.eq_of_shown h
          rfl
      | narrowing value target => exact absurd h (Ty.and_ne_to _ _ _ _)
  | narrowing value target =>
      cases c' with
      | narrowing value' target' =>
          obtain ⟨-, rfl, rfl⟩ := Ty.eq_of_shown h
          rfl
      | _ => exact absurd h.symm (Ty.and_ne_to _ _ _ _)

namespace Ty

/-- Two types that are written alike are the same one. So are two errors and two warnings about
types: what a message shows tells what is wrong with which types. -/
theorem texts_unambiguous :
    Function.Injective text ∧ Function.Injective TypeError.message ∧
      Function.Injective Conversion.message :=
  ⟨text_injective, TypeError.message_injective, Conversion.message_injective⟩

example : (pointer (function int [])).text = "int()*" ∧ (function (pointer int) []).text = "int*()" :=
  ⟨rfl, rfl⟩

end Ty

end AccumulatorC
