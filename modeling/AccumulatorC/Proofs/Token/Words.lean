import Mathlib.Data.List.TakeWhile
import AccumulatorC.Compile

/-!
# The words of a source

Tokens reach the parser from the text of files, through the inclusions in them, and each of them has
been read at some place of a line. So what holds of all tokens that are read holds of those that are
compiled; in particular, every identifier is a word.
-/

namespace AccumulatorC

/-- A word: a letter or an underscore, and letters, digits and underscores after it. -/
def IsWord (name : String) : Prop :=
  ∃ first rest, name.toList = first :: rest ∧ Lexeme.isWordStart first = true ∧
    ∀ c ∈ rest, Lexeme.isWordPart c = true

/-- A property of all tokens that are read. -/
def ReadOnly (holds : Token → Prop) : Prop :=
  ∀ first rest token more, Lexeme.read first rest = .token token more → holds token

/-! ## From lines to files -/

section Sources

variable {holds : Token → Prop}

/-- The tokens among what a line gives have a property. -/
def AllTokens (holds : Token → Prop) (items : List LexItem) : Prop :=
  ∀ token, .ok token ∈ items → holds token.value

theorem AllTokens.append {items others : List LexItem} (h : AllTokens holds items)
    (hothers : AllTokens holds others) : AllTokens holds (items ++ others) := by
  intro token hmem
  rcases List.mem_append.mp hmem with hmem | hmem
  · exact h token hmem
  · exact hothers token hmem

theorem AllTokens.error {cause : Located LexError} {items : List LexItem}
    (h : AllTokens holds items) : AllTokens holds (.error cause :: items) := by
  intro token hmem
  cases hmem with
  | tail _ hmem => exact h token hmem

theorem AllTokens.nil : AllTokens holds [] := by
  intro token hmem
  cases hmem

variable (hread : ReadOnly holds)
include hread

/-- A property of all tokens that can be read holds of those of a line. -/
theorem allTokens_cutLine (source : Source) (start : Location) (p : Position) (text : List Char) :
    AllTokens holds (cutLine source start p text).1 := by
  fun_induction cutLine source start p text with
  | case1 => exact .nil
  | case2 => assumption
  | case3 start p first rest _ token more hlexeme _ items state hrest ih =>
      intro found hmem
      rcases List.mem_cons.mp hmem with hfound | hmem
      · cases hfound
        exact hread _ _ _ _ hlexeme
      · rw [hrest] at ih
        exact ih found hmem
  | case4 => exact .nil
  | case5 => assumption
  | case6 => exact .nil
  | case7 => exact .error .nil

theorem allTokens_enterLine (source : Source) (number : Nat) (state : LexState)
    (line : List Char) : AllTokens holds (enterLine source number state line).1 := by
  unfold enterLine
  split
  · exact allTokens_cutLine hread _ _ _ _
  · exact .nil
  · split
    · exact allTokens_cutLine hread _ _ _ _
    · exact .nil

/-- It holds of those of all lines. -/
theorem allTokens_cutLinesFrom (source : Source) (number : Nat) (state : LexState)
    (lines : List (Option (List Char))) :
    AllTokens holds (cutLinesFrom source number state lines) := by
  induction lines generalizing number state with
  | nil =>
      rw [cutLinesFrom]
      split
      · exact .error .nil
      · exact .nil
  | cons line lines ih =>
      cases line with
      | none => exact .error (ih _ _)
      | some line => exact (allTokens_enterLine hread source number state line).append (ih _ _)

/-- It holds of the tokens of a reading. -/
theorem Reading.tokens_holds {reading : Reading} {tokens : List (Located Token)}
    (h : reading.tokens = .ok tokens) : ∀ token ∈ tokens, holds token.value := by
  unfold Reading.tokens at h
  split at h
  · cases h
    intro token hmem
    obtain ⟨item, hitem, hsome⟩ := List.mem_filterMap.mp hmem
    cases item with
    | error cause => cases hsome
    | ok found =>
        cases hsome
        exact allTokens_cutLinesFrom hread _ _ _ _ token hitem
  · cases h

end Sources

/-! ## Through inclusions -/

/-- Whatever the step gives has a property. -/
def Gives {α : Type} (step : StateM Inclusions α) (post : α → Prop) : Prop :=
  ∀ state, post (step.run state).1

theorem Gives.pure {α : Type} {value : α} {post : α → Prop} (h : post value) :
    Gives (Pure.pure value) post := fun _ => h

theorem Gives.bind {α β : Type} {first : StateM Inclusions α} {second : α → StateM Inclusions β}
    {post : α → Prop} {last : β → Prop} (h : Gives first post)
    (hsecond : ∀ value, post value → Gives (second value) last) :
    Gives (first >>= second) last :=
  fun state => hsecond _ (h state) _

/-- After a step of which nothing is known. -/
theorem Gives.after {α β : Type} {first : StateM Inclusions α} {second : α → StateM Inclusions β}
    {last : β → Prop} (hsecond : ∀ value, Gives (second value) last) :
    Gives (first >>= second) last :=
  fun _ => hsecond _ _

section Inclusion

variable {holds : Token → Prop}

/-- All tokens of an expansion have a property. -/
def Expansion.All (holds : Token → Prop) (expansion : Expansion) : Prop :=
  ∀ token ∈ expansion.tokens, holds token.value

theorem Expansion.all_empty : Expansion.All holds .empty := by
  intro token hmem
  cases hmem

theorem Expansion.all_ofError {cause : LexError} {location : Location} :
    Expansion.All holds (.ofError cause location) := by
  intro token hmem
  cases hmem

theorem Expansion.all_ofToken {token : Located Token} (h : holds token.value) :
    Expansion.All holds (.ofToken token) := by
  intro found hmem
  rw [List.mem_singleton.mp hmem]
  exact h

/-- What holds of the tokens of two expansions holds of both together. -/
theorem Expansion.All.append {first second : Expansion} (hfirst : first.All holds)
    (hsecond : second.All holds) : (first ++ second).All holds := by
  intro token hmem
  rcases List.mem_append.mp hmem with hmem | hmem
  · exact hfirst token hmem
  · exact hsecond token hmem

/-- If it holds of what directives bring, it holds of tokens in which they are replaced. -/
theorem expandTokens_gives {enter : Path → Location → StateM Inclusions Expansion}
    (henter : ∀ path location, Gives (enter path location) (Expansion.All holds)) (directory : Path)
    {tokens : List (Located Token)} (h : ∀ token ∈ tokens, holds token.value) :
    Gives (expandTokens enter directory tokens) (Expansion.All holds) := by
  fun_induction expandTokens enter directory tokens with
  | case1 => exact .pure Expansion.all_empty
  | case2 token hinclusion => exact .pure Expansion.all_ofError
  | case3 token hinclusion => exact .pure (Expansion.all_ofToken (h token List.mem_cons_self))
  | case4 token next rest hinclusion bytes hbytes ih =>
      have hrest := ih fun token hmem =>
        h token (List.mem_cons_of_mem _ (List.mem_cons_of_mem _ hmem))
      exact (henter _ _).bind fun included hincluded =>
        hrest.bind fun _ htokens => .pure (hincluded.append htokens)
  | case5 token next rest hinclusion hother ih =>
      have hrest := ih fun token hmem =>
        h token (List.mem_cons_of_mem _ (List.mem_cons_of_mem _ hmem))
      exact hrest.bind fun _ htokens => .pure (Expansion.all_ofError.append htokens)
  | case6 token next rest hinclusion ih =>
      have hrest := ih fun token hmem => h token (List.mem_cons_of_mem _ hmem)
      have hfirst := Expansion.all_ofToken (h token List.mem_cons_self)
      exact hrest.bind fun _ htokens => .pure (hfirst.append htokens)

variable (hread : ReadOnly holds)
include hread

theorem expandReading_gives {enter : Path → Location → StateM Inclusions Expansion}
    (henter : ∀ path location, Gives (enter path location) (Expansion.All holds)) (directory : Path)
    (reading : Reading) : Gives (expandReading enter directory reading) (Expansion.All holds) := by
  unfold expandReading
  split
  next tokens htokens =>
    exact expandTokens_gives henter directory (Reading.tokens_holds hread htokens)
  next => exact .pure fun token hmem => by cases hmem

/-- A property of all tokens that can be read holds of those that a file brings. -/
theorem expandFile_gives (tree : FileTree) (depth : Nat) (path : Path) (location : Location) :
    Gives (expandFile tree depth path location) (Expansion.All holds) := by
  induction depth generalizing path location with
  | zero => exact .pure Expansion.all_empty
  | succ depth ih =>
      rw [expandFile]
      refine Gives.after fun first => ?_
      split
      · refine Gives.after fun opened => ?_
        cases opened with
        | ok bytes => exact expandReading_gives hread ih _ _
        | error cause => exact .pure Expansion.all_ofError
      · exact .pure Expansion.all_empty

namespace FileTree

/-- What holds of all tokens that are read holds of the tokens of a file with its inclusions. -/
theorem tokens_holds {tree : FileTree} {path : Path} {tokens : List (Located Token)}
    (h : tree.tokens path = .ok tokens) : ∀ token ∈ tokens, holds token.value := by
  unfold FileTree.tokens Expansion.result at h
  split at h
  · cases h
    exact expandFile_gives hread tree _ path _ ⟨[], []⟩
  · cases h

/-- What holds of all tokens that are read holds of the tokens of a text with its inclusions. -/
theorem textTokens_holds {tree : FileTree} {name : String} {text : ByteArray} {directory : Path}
    {tokens : List (Located Token)} (h : tree.textTokens name text directory = .ok tokens) :
    ∀ token ∈ tokens, holds token.value := by
  unfold FileTree.textTokens FileTree.expandText Expansion.result at h
  split at h
  · cases h
    exact expandReading_gives hread (expandFile_gives hread tree _) directory _ ⟨[], []⟩
  · cases h

end FileTree

end Inclusion

/-! ## Words -/

namespace Lexeme

theorem word_isWord {first : Char} {rest : List Char} {name : String} {more : Nat}
    (hstart : isWordStart first = true)
    (h : word first rest = .token (.identifier name) more) : IsWord name := by
  unfold word at h
  simp only at h
  split at h
  · cases h
  · cases h
    refine ⟨first, rest.takeWhile isWordPart, String.toList_ofList, hstart, fun c hmem => ?_⟩
    exact (List.mem_takeWhile_imp hmem)

theorem integer_ne_identifier {base : UInt32} {digits : List Char} {count more : Nat}
    {name : String} : integer base digits count ≠ .token (.identifier name) more := by
  unfold integer
  split <;> simp

theorem number_ne_identifier {first : Char} {rest : List Char} {name : String} {more : Nat} :
    number first rest ≠ .token (.identifier name) more := by
  have hhexadecimal : ∀ digits : List Char,
      (if digits = [] then .error .missingHexDigits
        else integer 16 digits (digits.length + 1)) ≠ .token (.identifier name) more := by
    intro digits
    split
    · simp
    · exact integer_ne_identifier
  unfold number
  split
  · exact hhexadecimal _
  · exact hhexadecimal _
  · exact integer_ne_identifier

theorem markOr_ne_identifier {short : Mark} {rest : List Char} {longer : List (Char × Mark)}
    {name : String} {more : Nat} : markOr short rest longer ≠ .token (.identifier name) more := by
  unfold markOr
  split
  · split <;> simp
  · simp

theorem closeCharacter_ne_identifier {byte : UInt8} {count more : Nat} {rest : List Char}
    {name : String} : closeCharacter byte count rest ≠ .token (.identifier name) more := by
  unfold closeCharacter
  split <;> simp

theorem character_ne_identifier {rest : List Char} {name : String} {more : Nat} :
    character rest ≠ .token (.identifier name) more := by
  unfold character
  split
  any_goals simp
  all_goals
    split
    · exact closeCharacter_ne_identifier
    · simp

theorem string_ne_identifier {rest : List Char} {name : String} {more : Nat} :
    string rest ≠ .token (.identifier name) more := by
  unfold string
  split <;> simp

theorem directive_ne_identifier {rest : List Char} {name : String} {more : Nat} :
    directive rest ≠ .token (.identifier name) more := by
  unfold directive
  simp only
  split <;> simp

/-- An identifier that is read is a word. -/
theorem readOnly_isWord : ReadOnly fun token => ∀ name, token = .identifier name → IsWord name := by
  rintro first rest token more h name rfl
  unfold read at h
  split at h
  · cases h
  · split at h
    next hstart => exact word_isWord hstart h
    next =>
      split at h
      · exact absurd h number_ne_identifier
      · split at h
        all_goals
          first
          | cases h
          | exact absurd h markOr_ne_identifier
          | exact absurd h character_ne_identifier
          | exact absurd h string_ne_identifier
          | exact absurd h directive_ne_identifier
          | split at h <;> cases h

end Lexeme

end AccumulatorC
