import AccumulatorC.Program.Parser.Unit
import AccumulatorC.Proofs.Program.Term

/-!
# Phrases

A phrase is a statement as it is written, and a source consists of the declarations of variables and
the routines as they are written. The grammar says which tokens spell them. A phrase is open when a
keyword `else` after it would become part of it: such a phrase does not stand between a condition and
an `else`.
-/

namespace AccumulatorC

/-! ## What is written -/

/-- The declaration of a variable as it is written. -/
structure Variable where
  external : Bool
  type : Ty
  name : String
  initial : Option Term

/-- A statement as it is written. -/
inductive Phrase
  | declaration (declared : Variable)
  | expression (value : Term)
  | returning (value : Option Term)
  | branch (condition : Term) (yes : Phrase)
  | choice (condition : Term) (yes no : Phrase)
  | loop (condition : Term) (body : Phrase)
  | block (body : List Phrase)

/-- A parameter as it is written. -/
structure Parameter where
  type : Ty
  name : String

/-- A function as it is written. -/
structure Routine where
  result : Ty
  name : String
  parameters : List Parameter
  body : List Phrase

/-- What a source consists of. -/
inductive Entry
  | global (declared : Variable)
  | function (defined : Routine)

/-- Whether the phrase can stand directly in a block only. -/
def Phrase.isDeclaration : Phrase → Bool
  | declaration _ => true
  | _ => false

/-- Whether an `else` after the phrase would become part of it. -/
def Phrase.isOpen : Phrase → Bool
  | branch _ _ => true
  | choice _ _ no => no.isOpen
  | loop _ body => body.isOpen
  | _ => false

/-! ## The grammar -/

/-- The tokens that spell a type. Types of functions have no spelling. -/
inductive Ty.Spelling : Ty → List Token → Prop
  | void : Spelling .void [.keyword .voidType]
  | char : Spelling .char [.keyword .charType]
  | int : Spelling .int [.keyword .intType]
  | pointer {base : Ty} {tokens : List Token} (h : Spelling base tokens) :
      Spelling (.pointer base) (tokens ++ [.mark .star])

/-- The tokens that spell the initial value of a variable, if it has one. -/
inductive Variable.SpellsInitial : Option Term → List Token → Prop
  | none : SpellsInitial none []
  | some {value : Term} {tokens : List Token} (h : value.Spelling loosestLevel tokens) :
      SpellsInitial (some value) (.mark .assign :: tokens)

/-- The tokens of a declaration, with the keyword in front if it is of something defined
elsewhere. -/
def Variable.externally (external : Bool) (tokens : List Token) : List Token :=
  if external then .keyword .external :: tokens else tokens

/-- The tokens that spell the declaration of a variable, without the semicolon. -/
inductive Variable.Spelling (declared : Variable) : List Token → Prop
  | mk {type initial : List Token} (htype : declared.type.Spelling type)
      (hinitial : SpellsInitial declared.initial initial) :
      Spelling declared
        (externally declared.external (type ++ .identifier declared.name :: initial))

mutual

/-- The tokens that spell a phrase. -/
inductive Phrase.Spelling : Phrase → List Token → Prop
  | declaration {declared : Variable} {tokens : List Token} (h : declared.Spelling tokens) :
      Spelling (.declaration declared) (tokens ++ [.mark .semicolon])
  | expression {value : Term} {tokens : List Token} (h : value.Spelling loosestLevel tokens) :
      Spelling (.expression value) (tokens ++ [.mark .semicolon])
  | returnNothing : Spelling (.returning none) [.keyword .returning, .mark .semicolon]
  | returnValue {value : Term} {tokens : List Token} (h : value.Spelling loosestLevel tokens) :
      Spelling (.returning (some value)) (.keyword .returning :: (tokens ++ [.mark .semicolon]))
  | branch {condition : Term} {yes : Phrase} {tokens inside : List Token}
      (hcondition : condition.Spelling loosestLevel tokens) (hyes : Spelling yes inside)
      (hstatement : yes.isDeclaration = false) :
      Spelling (.branch condition yes)
        (.keyword .ifThen :: (Term.parenthesized tokens ++ inside))
  /-- An `else` belongs to the last condition that has none. -/
  | choice {condition : Term} {yes no : Phrase} {tokens inside other : List Token}
      (hcondition : condition.Spelling loosestLevel tokens) (hyes : Spelling yes inside)
      (hstatement : yes.isDeclaration = false) (hclosed : yes.isOpen = false)
      (hno : Spelling no other) (hstatement' : no.isDeclaration = false) :
      Spelling (.choice condition yes no)
        (.keyword .ifThen :: (Term.parenthesized tokens ++ inside ++ .keyword .elseThen :: other))
  | loop {condition : Term} {body : Phrase} {tokens inside : List Token}
      (hcondition : condition.Spelling loosestLevel tokens) (hbody : Spelling body inside)
      (hstatement : body.isDeclaration = false) :
      Spelling (.loop condition body)
        (.keyword .whileLoop :: (Term.parenthesized tokens ++ inside))
  | block {body : List Phrase} {inside : List Token} (hbody : AllSpelling body inside) :
      Spelling (.block body) (.mark .openBrace :: (inside ++ [.mark .closeBrace]))

/-- The tokens that spell phrases one after the other. -/
inductive Phrase.AllSpelling : List Phrase → List Token → Prop
  | nil : AllSpelling [] []
  | cons {phrase : Phrase} {rest : List Phrase} {tokens after : List Token}
      (h : Spelling phrase tokens) (hrest : AllSpelling rest after) :
      AllSpelling (phrase :: rest) (tokens ++ after)

end

/-- The tokens that spell a parameter. -/
inductive Parameter.Spelling (parameter : Parameter) : List Token → Prop
  | mk {tokens : List Token} (h : parameter.type.Spelling tokens) :
      Spelling parameter (tokens ++ [.identifier parameter.name])

/-- The tokens that spell a function. -/
inductive Routine.Spelling : Routine → List Token → Prop
  | mk {result : Ty} {name : String} {parameters : List (Parameter × List Token)}
      {body : List Phrase} {tokens inside : List Token} (hresult : result.Spelling tokens)
      (hparameters : ∀ parameter ∈ parameters, parameter.1.Spelling parameter.2)
      (hbody : Phrase.AllSpelling body inside) :
      Spelling ⟨result, name, parameters.map (·.1), body⟩
        (tokens ++ .identifier name ::
          (Term.parenthesized (Term.commaSeparated (parameters.map (·.2))) ++
            .mark .openBrace :: (inside ++ [.mark .closeBrace])))

/-- The tokens that spell an entry of a source. -/
inductive Entry.Spelling : Entry → List Token → Prop
  | global {declared : Variable} {tokens : List Token} (h : declared.Spelling tokens) :
      Spelling (.global declared) (tokens ++ [.mark .semicolon])
  | function {defined : Routine} {tokens : List Token} (h : defined.Spelling tokens) :
      Spelling (.function defined) tokens

/-- The tokens that spell a source. -/
inductive Entry.AllSpelling : List Entry → List Token → Prop
  | nil : AllSpelling [] []
  | cons {entry : Entry} {rest : List Entry} {tokens after : List Token} (h : entry.Spelling tokens)
      (hrest : AllSpelling rest after) : AllSpelling (entry :: rest) (tokens ++ after)

/-! ## How phrases begin -/

/-- Whether a token can stand at the beginning of a phrase. -/
def Token.beginsPhrase : Token → Bool
  | .keyword .elseThen => false
  | .keyword _ => true
  | .mark .openBrace => true
  | token => token.begins

theorem Token.beginsPhrase_of_begins {token : Token} (h : token.begins = true) :
    token.beginsPhrase = true := by
  unfold beginsPhrase
  split <;> first | rfl | exact h

/-- A type begins with its keyword, and only stars follow. -/
theorem Ty.Spelling.begins {type : Ty} {tokens : List Token} (h : type.Spelling tokens) :
    ∃ (word : Keyword) (stars : List Token), tokens = .keyword word :: stars ∧ word.isType = true ∧
      ∀ token ∈ stars, token = .mark .star := by
  induction h with
  | void => exact ⟨_, [], rfl, rfl, List.forall_mem_nil _⟩
  | char => exact ⟨_, [], rfl, rfl, List.forall_mem_nil _⟩
  | int => exact ⟨_, [], rfl, rfl, List.forall_mem_nil _⟩
  | pointer h ih =>
      obtain ⟨word, stars, rfl, hword, hstars⟩ := ih
      refine ⟨word, stars ++ [.mark .star], rfl, hword, fun token htoken => ?_⟩
      rcases List.mem_append.mp htoken with htoken | htoken
      · exact hstars token htoken
      · exact List.mem_singleton.mp htoken

theorem Variable.externally_append (external : Bool) (tokens rest : List Token) :
    externally external (tokens ++ rest) = externally external tokens ++ rest := by
  cases external <;> rfl

theorem Variable.Spelling.begins {declared : Variable} {tokens : List Token}
    (h : declared.Spelling tokens) :
    ∃ (word : Keyword) (rest : List Token), tokens = .keyword word :: rest ∧
      (word.isType = true ∨ word = .external) := by
  obtain ⟨htype, hinitial⟩ := h
  obtain ⟨word, stars, rfl, hword, -⟩ := htype.begins
  unfold externally
  split
  · exact ⟨.external, _, rfl, .inr rfl⟩
  · exact ⟨word, _, rfl, .inl hword⟩

/-- A parameter begins with its type. -/
theorem Parameter.Spelling.begins {parameter : Parameter} {tokens : List Token}
    (h : parameter.Spelling tokens) :
    ∃ (word : Keyword) (rest : List Token), tokens = .keyword word :: rest := by
  obtain ⟨htype⟩ := h
  obtain ⟨word, stars, rfl, -⟩ := htype.begins
  exact ⟨word, _, rfl⟩

theorem Entry.Spelling.begins {entry : Entry} {tokens : List Token} (h : entry.Spelling tokens) :
    ∃ (word : Keyword) (rest : List Token), tokens = .keyword word :: rest := by
  cases h with
  | global h =>
      obtain ⟨word, rest, rfl, -⟩ := h.begins
      exact ⟨word, _, rfl⟩
  | function h =>
      obtain ⟨hresult, -, -⟩ := h
      obtain ⟨word, stars, rfl, -, -⟩ := hresult.begins
      exact ⟨word, _, rfl⟩

/-- How a phrase begins tells whether it is a declaration. -/
theorem Phrase.Spelling.begins {phrase : Phrase} {tokens : List Token} (h : phrase.Spelling tokens) :
    ∃ token rest, tokens = token :: rest ∧ token.beginsPhrase = true ∧
      Parser.beginsDeclaration (some token) = phrase.isDeclaration := by
  have hterm : ∀ {value : Term} {tokens : List Token}, value.Spelling loosestLevel tokens →
      ∃ token rest, tokens = token :: rest ∧ token.beginsPhrase = true ∧
        Parser.beginsDeclaration (some token) = false := by
    intro value tokens h
    obtain ⟨token, rest, rfl, hbegins⟩ := h.begins
    refine ⟨token, rest, rfl, Token.beginsPhrase_of_begins hbegins, ?_⟩
    cases token with
    | keyword => cases hbegins
    | _ => rfl
  cases h with
  | declaration h =>
      obtain ⟨word, rest, rfl, hword⟩ := h.begins
      refine ⟨_, _, rfl, ?_, ?_⟩
      · rcases hword with hword | rfl
        · cases word <;> first | rfl | cases hword
        · rfl
      · rcases hword with hword | rfl
        · exact Bool.or_eq_true_iff.mpr (.inl hword)
        · rfl
  | expression h =>
      obtain ⟨token, rest, rfl, hbegins⟩ := hterm h
      exact ⟨token, _, rfl, hbegins⟩
  | returnNothing => exact ⟨_, _, rfl, rfl, rfl⟩
  | returnValue => exact ⟨_, _, rfl, rfl, rfl⟩
  | branch => exact ⟨_, _, rfl, rfl, rfl⟩
  | choice => exact ⟨_, _, rfl, rfl, rfl⟩
  | loop => exact ⟨_, _, rfl, rfl, rfl⟩
  | block => exact ⟨_, _, rfl, rfl, rfl⟩

/-- After phrases comes what comes after them, or how a phrase begins. -/
theorem Phrase.AllSpelling.head?_ne {phrases : List Phrase} {tokens rest : List Token}
    (h : AllSpelling phrases tokens) {token : Token} (htoken : token.beginsPhrase = false)
    (hrest : rest.head? ≠ some token) : (tokens ++ rest).head? ≠ some token := by
  cases h with
  | nil => exact hrest
  | cons h =>
      obtain ⟨first, others, rfl, hbegins, -⟩ := h.begins
      rintro ⟨⟩
      rw [htoken] at hbegins
      cases hbegins

end AccumulatorC
