import AccumulatorC.Proofs.Text.Decoding
import AccumulatorC.Proofs.Token.Spelling

/-!
# Tokens and the text around them

A text is covered by its tokens and by what lies between them, which is blank or a comment. When
lines give tokens only, these tokens cover their characters: this is shown from the last line to the
first, since a comment that one line leaves open is closed by a later one.
-/

namespace AccumulatorC

/-! ## Comments and gaps -/

/-- The sign that closes a block comment. -/
def commentEnd : List Char := ['*', '/']

/-- A text closes a block comment that is open, and does so at its end only. -/
def ClosesComment (text : List Char) : Prop :=
  ∃ body, text = body ++ commentEnd ∧ ¬commentEnd <:+: body ++ ['*']

/-- A complete comment, up to the end of its line or to the first sign that closes it. -/
inductive IsComment : List Char → Prop
  | line {body : List Char} (hbody : '\n' ∉ body) : IsComment ('/' :: '/' :: (body ++ ['\n']))
  | block {body : List Char} (hbody : ClosesComment body) : IsComment ('/' :: '*' :: body)

/-- A comment begins here. -/
def BeginsComment (text : List Char) : Prop := ['/', '/'] <+: text ∨ ['/', '*'] <+: text

/-- Blanks and complete comments. -/
inductive IsGap : List Char → Prop
  | nil : IsGap []
  | blank {c : Char} {rest : List Char} (hblank : Lexeme.isBlank c = true) (hrest : IsGap rest) :
      IsGap (c :: rest)
  | comment {text rest : List Char} (htext : IsComment text) (hrest : IsGap rest) :
      IsGap (text ++ rest)

theorem IsComment.isGap {text : List Char} (h : IsComment text) : IsGap text := by
  rw [← List.append_nil text]
  exact .comment h .nil

/-- Gaps behind each other are a gap. -/
theorem IsGap.append {first second : List Char} (hfirst : IsGap first) (hsecond : IsGap second) :
    IsGap (first ++ second) := by
  induction hfirst with
  | nil => exact hsecond
  | blank hblank _ ih => exact .blank hblank ih
  | comment htext _ ih =>
      rw [List.append_assoc]
      exact .comment htext ih

/-! ## Covered texts -/

/-- No spelling of a token that begins a text is longer than some number of characters. -/
def NoLongerToken (length : Nat) (text : List Char) : Prop :=
  ∀ (other : Token) (spelling : List Char), other.Spelling spelling → spelling <+: text →
    spelling.length ≤ length

/-- Characters are covered by tokens in order: before, between and after the tokens there are gaps,
and every token stands for a text of its own, the longest one that begins there, and has the place
from the first to the last of its characters. -/
inductive Covers : List (Located Char) → List (Located Token) → Prop
  | gap {gap : List (Located Char)} (hgap : IsGap (textOf gap)) : Covers gap []
  | token {gap lexeme rest : List (Located Char)} {first last : Located Char} {token : Token}
      {tokens : List (Located Token)} (hgap : IsGap (textOf gap))
      (hfirst : lexeme.head? = some first) (hlast : lexeme.getLast? = some last)
      (hspelling : token.Spelling (textOf lexeme))
      (hlongest : NoLongerToken lexeme.length (textOf (lexeme ++ rest)))
      (hcode : ¬BeginsComment (textOf (lexeme ++ rest))) (hrest : Covers rest tokens) :
      Covers (gap ++ lexeme ++ rest) (⟨token, .span first.location last.location⟩ :: tokens)

/-- A gap in front of a covered text leaves it covered. -/
theorem Covers.skip {gap chars : List (Located Char)} {tokens : List (Located Token)}
    (h : Covers chars tokens) (hgap : IsGap (textOf gap)) : Covers (gap ++ chars) tokens := by
  cases h with
  | gap hlater =>
      apply Covers.gap
      rw [textOf_append]
      exact hgap.append hlater
  | token hlater hfirst hlast hspelling hlongest hcode hrest =>
      rw [List.append_assoc, ← List.append_assoc, ← List.append_assoc]
      refine .token ?_ hfirst hlast hspelling hlongest hcode hrest
      rw [textOf_append]
      exact hgap.append hlater

/-! ## What is left of a line -/

/-- What is left of a line: nothing, or some characters up to and with its newline. -/
inductive LineRest : List Char → Prop
  | done : LineRest []
  | more {body : List Char} (hbody : '\n' ∉ body) : LineRest (body ++ ['\n'])

theorem LineRest.tail {first : Char} {rest : List Char} (h : LineRest (first :: rest)) :
    LineRest rest := by
  generalize hwhole : first :: rest = whole at h
  cases h with
  | done => cases hwhole
  | @more body hbody =>
      cases body with
      | nil =>
          obtain ⟨-, rfl⟩ := List.cons.inj hwhole
          exact .done
      | cons c body =>
          obtain ⟨-, rfl⟩ := List.cons.inj hwhole
          exact .more fun hmem => hbody (List.mem_cons_of_mem _ hmem)

theorem LineRest.of_append (taken : List Char) {rest : List Char} (h : LineRest (taken ++ rest)) :
    LineRest rest := by
  induction taken with
  | nil => exact h
  | cons c taken ih => exact ih h.tail

theorem LineRest.exists_body {text : List Char} (h : LineRest text) (hne : text ≠ []) :
    ∃ body, '\n' ∉ body ∧ text = body ++ ['\n'] := by
  cases h with
  | done => exact absurd rfl hne
  | more hbody => exact ⟨_, hbody, rfl⟩

/-- What is left of a line is a comment if it begins as one. -/
theorem LineRest.isComment {rest : List Char} (h : LineRest ('/' :: '/' :: rest)) :
    IsComment ('/' :: '/' :: rest) := by
  obtain ⟨body, hbody, hwhole⟩ := h.exists_body (List.cons_ne_nil _ _)
  match body, hwhole with
  | [], hwhole => cases hwhole
  | [_], hwhole => cases hwhole
  | first :: second :: body, hwhole =>
      obtain ⟨-, hwhole⟩ := List.cons.inj hwhole
      obtain ⟨-, rfl⟩ := List.cons.inj hwhole
      exact .line fun hmem => hbody (List.mem_cons_of_mem _ (List.mem_cons_of_mem _ hmem))

/-- A text without a newline that begins more than a line begins the line. -/
theorem LineRest.prefix_of_prefix {line text more : List Char} (h : LineRest line) (hne : line ≠ [])
    (htext : '\n' ∉ text) (hfront : text <+: line ++ more) : text <+: line := by
  obtain h' | h' := List.prefix_or_prefix_of_prefix hfront (List.prefix_append line more)
  · exact h'
  · obtain ⟨body, -, rfl⟩ := h.exists_body hne
    exact absurd (h'.subset (by simp)) htext

/-! ## Closing a comment -/

theorem commentEnd_prefix_cons {c : Char} {rest : List Char} :
    commentEnd <+: c :: rest ↔ c = '*' ∧ ∃ after, rest = '/' :: after := by
  constructor
  · rintro ⟨after, h⟩
    obtain ⟨rfl, hrest⟩ := List.cons.inj h
    exact ⟨rfl, after, hrest.symm⟩
  · rintro ⟨rfl, after, rfl⟩
    exact ⟨after, rfl⟩

theorem commentLength?_eq_some {text : List Char} {length : Nat}
    (h : commentLength? text = some length) :
    ∃ body rest, text = body ++ rest ∧ body.length = length ∧ ClosesComment body := by
  fun_induction commentLength? text generalizing length with
  | case1 rest =>
      cases h
      exact ⟨commentEnd, rest, rfl, rfl, [], rfl, by decide⟩
  | case2 c rest hnot ih =>
      obtain ⟨count, hcount, rfl⟩ := Option.map_eq_some_iff.mp h
      obtain ⟨_, after, rfl, rfl, inner, rfl, hinner⟩ := ih hcount
      refine ⟨c :: (inner ++ commentEnd), after, rfl, rfl, c :: inner, rfl, fun hinfix => ?_⟩
      rcases List.infix_cons_iff.mp hinfix with hfront | hinfix
      · obtain ⟨rfl, later, hlater⟩ := commentEnd_prefix_cons.mp hfront
        cases inner with
        | nil => cases hlater
        | cons next inner =>
            obtain ⟨rfl, -⟩ := List.cons.inj hlater
            exact hnot _ rfl rfl
      · exact hinner hinfix
  | case3 => cases h

theorem commentLength?_eq_none {text : List Char} (h : commentLength? text = none) :
    ¬commentEnd <:+: text := by
  fun_induction commentLength? text with
  | case1 rest => cases h
  | case2 c rest hnot ih =>
      intro hinfix
      rcases List.infix_cons_iff.mp hinfix with hfront | hinfix
      · obtain ⟨rfl, after, rfl⟩ := commentEnd_prefix_cons.mp hfront
        exact hnot _ rfl rfl
      · exact ih (Option.map_eq_none_iff.mp h) hinfix
  | case3 => exact fun hinfix => absurd (List.infix_nil.mp hinfix) (List.cons_ne_nil _ _)

/-- What is left of a line with an open comment goes on to the text that closes it: the sign that
closes it does not stand on both sides of a newline. -/
theorem ClosesComment.of_line {line body : List Char} (h : ClosesComment body)
    (hline : LineRest line) (hopen : ¬commentEnd <:+: line) : ClosesComment (line ++ body) := by
  cases hline with
  | done => exact h
  | @more start hstart =>
      obtain ⟨inner, rfl, hinner⟩ := h
      refine ⟨start ++ ['\n'] ++ inner, by simp, fun hinfix => ?_⟩
      rw [List.append_assoc] at hinfix
      rcases List.infix_append_iff.mp hinfix with
        hbefore | hafter | ⟨left, right, hsplit, hleft, hright⟩
      · exact hopen hbefore
      · exact hinner hafter
      · rcases List.suffix_concat_iff.mp hleft with rfl | ⟨_, rfl, -⟩
        · exact hinner (hsplit ▸ hright.isInfix)
        · have hmem : '\n' ∈ commentEnd := by simp [hsplit]
          exact absurd hmem (by decide)

/-! ## Covering a line -/

/-- What follows a line is covered, given how the line is left: afresh it is covered by tokens, and
after an open comment it begins with what closes the comment. -/
def LineEntry.Covers : LineEntry → List (Located Char) → List (Located Token) → Prop
  | .fresh, chars, tokens => AccumulatorC.Covers chars tokens
  | .comment, chars, tokens => ∃ body rest, chars = body ++ rest ∧ ClosesComment (textOf body) ∧
      AccumulatorC.Covers rest tokens
  | .recovering, _, _ => True

/-- Where a token is read, no comment begins. -/
theorem Lexeme.not_beginsComment {first : Char} {rest more : List Char} {token : Token}
    {count : Nat} (hline : LineRest (first :: rest))
    (hread : read first rest = .token token count) : ¬BeginsComment (first :: rest ++ more) := by
  have hnot : ∀ second, second = '/' ∨ second = '*' → ¬['/', second] <+: first :: rest ++ more := by
    intro second hsecond hfront
    have hnewline : '\n' ∉ ['/', second] := by rcases hsecond with rfl | rfl <;> decide
    obtain ⟨after, hafter⟩ := hline.prefix_of_prefix (List.cons_ne_nil _ _) hnewline hfront
    obtain ⟨rfl, rfl⟩ := List.cons.inj hafter
    rcases hsecond with rfl | rfl <;> cases hread
  exact not_or.mpr ⟨hnot '/' (.inl rfl), hnot '*' (.inr rfl)⟩

section Line

variable {source : Source} {p : Position}

/-- A text is placed from its first to its last character. -/
theorem exists_last (source : Source) (p : Position) {text : List Char} (hne : text ≠ []) :
    ∃ last, (locate source p text).getLast? = some last ∧
      last.location = .cell source (p.afterAll text.dropLast) := by
  obtain ⟨before, c, rfl⟩ : ∃ before c, text = before ++ [c] :=
    ⟨_, _, (List.dropLast_concat_getLast hne).symm⟩
  refine ⟨⟨c, .cell source (p.afterAll before)⟩, ?_, ?_⟩
  · rw [locate_append]
    exact List.getLast?_concat
  · rw [List.dropLast_concat]

/-- What a line gives covers what is left of it from some position on, together with the characters
after it. -/
def LineCovers (source : Source) (p : Position) (text : List Char) (chars : List (Located Char))
    (later : List (Located Token)) (result : List LexItem × LexState) : Prop :=
  LineRest text → ∀ tokens, result.1 = tokens.map .ok → result.2.entry.Covers chars later →
    Covers (locate source p text ++ chars) (tokens ++ later)

variable {text rest : List Char} {chars : List (Located Char)} {later : List (Located Token)}
  {result : List LexItem × LexState}

theorem LineCovers.nil {start : Location} :
    LineCovers source p [] chars later ([], ⟨.fresh, start⟩) := by
  intro hline tokens hitems hlater
  obtain rfl : tokens = [] := List.map_eq_nil_iff.mp hitems.symm
  exact hlater

theorem LineCovers.skip (taken : List Char) (htaken : IsGap taken)
    (h : LineCovers source (p.afterAll taken) rest chars later result)
    (htext : text = taken ++ rest) : LineCovers source p text chars later result := by
  intro hline tokens hitems hlater
  subst htext
  rw [locate_append, List.append_assoc]
  apply Covers.skip (h (hline.of_append taken) tokens hitems hlater)
  rwa [textOf_locate]

/-- No spelling of a token that begins a text is longer than the one that is read. -/
theorem noLongerToken {first : Char} {taken after more : List Char} {token : Token}
    (hline : LineRest (first :: (taken ++ after)))
    (hread : Lexeme.read first (taken ++ after) = .token token taken.length) :
    NoLongerToken (first :: taken).length (first :: (taken ++ after) ++ more) := by
  intro other spelling hother hfront
  obtain ⟨beyond, hbeyond⟩ :=
    hline.prefix_of_prefix (List.cons_ne_nil _ _) hother.newline_not_mem hfront
  cases spelling with
  | nil => exact Nat.zero_le _
  | cons c spelling =>
      obtain ⟨rfl, hrest⟩ := List.cons.inj hbeyond
      rw [← hrest] at hread
      exact Nat.succ_le_succ (Lexeme.length_le_of_read hother hread)

theorem LineCovers.token {first : Char} {token : Token} {more : Nat} {items : List LexItem}
    {state : LexState} (hread : Lexeme.read first rest = .token token more)
    (h : LineCovers source (p.afterAll (first :: rest.take more)) (rest.drop more) chars later
      (items, state)) :
    LineCovers source p (first :: rest) chars later
      (.ok ⟨token, spanFrom source p (first :: rest) more⟩ :: items, state) := by
  intro hline tokens hitems hlater
  obtain ⟨taken, after, rfl, rfl, hspelling⟩ := Lexeme.describes_of_read hread
  rw [List.take_left, List.drop_left] at h
  cases tokens with
  | nil => cases hitems
  | cons found tokens =>
      obtain ⟨hfound, hrest⟩ := List.cons.inj hitems
      cases hfound
      have hcovers := h (hline.of_append (first :: taken)) tokens hrest hlater
      obtain ⟨last, hlast, hplace⟩ := exists_last source p (List.cons_ne_nil first taken)
      have hspan : spanFrom source p (first :: (taken ++ after)) taken.length =
          .span (.cell source p) last.location := by
        rw [hplace, List.dropLast_eq_take, spanFrom, ← List.cons_append,
          List.take_append_of_le_length (Nat.le_succ _)]
        rfl
      have hbeyond : textOf (locate source p (first :: taken) ++
          (locate source (p.afterAll (first :: taken)) after ++ chars)) =
            first :: (taken ++ after) ++ textOf chars := by
        simp
      rw [hspan, ← List.cons_append, locate_append, List.append_assoc,
        ← List.nil_append (locate source p _)]
      refine .token (show IsGap (textOf []) from .nil) rfl hlast ?_ ?_ ?_ hcovers
      · rwa [textOf_locate]
      · rw [hbeyond, locate_length]
        exact noLongerToken hline hread
      · rw [hbeyond]
        exact Lexeme.not_beginsComment hline hread

theorem cutLine_covers (start : Location) (p : Position) (text : List Char) :
    LineCovers source p text chars later (cutLine source start p text) := by
  fun_induction cutLine source start p text with
  | case1 start p => exact .nil
  | case2 start p first rest here hlexeme ih =>
      exact .skip [first] (.blank (Lexeme.describes_of_read hlexeme) .nil) ih rfl
  | case3 start p first rest here token more hlexeme taken items state hrest ih =>
      rw [hrest] at ih
      exact .token hlexeme ih
  | case4 start p first rest here hlexeme =>
      intro hline tokens hitems hlater
      obtain rfl : tokens = [] := List.map_eq_nil_iff.mp hitems.symm
      obtain ⟨rfl, after, rfl⟩ := Lexeme.describes_of_read hlexeme
      apply Covers.skip hlater
      rw [textOf_locate]
      exact hline.isComment.isGap
  | case5 start p first rest here hlexeme length hlength taken ih =>
      refine .skip taken ?_ ih (by rw [List.cons_append, List.take_append_drop])
      obtain ⟨rfl, after, rfl⟩ := Lexeme.describes_of_read hlexeme
      obtain ⟨body, rest, hafter, rfl, hbody⟩ := commentLength?_eq_some hlength
      obtain rfl : after = body ++ rest := hafter
      have htaken : taken = '/' :: '*' :: body := by simp [taken]
      rw [htaken]
      exact (IsComment.block hbody).isGap
  | case6 start p first rest here hlexeme hlength =>
      intro hline tokens hitems hlater
      obtain rfl : tokens = [] := List.map_eq_nil_iff.mp hitems.symm
      obtain ⟨rfl, after, rfl⟩ := Lexeme.describes_of_read hlexeme
      obtain ⟨body, rest, rfl, hbody, hrest⟩ := hlater
      rw [← List.append_assoc]
      apply Covers.skip hrest
      rw [textOf_append, textOf_locate]
      exact (IsComment.block (hbody.of_line hline.tail.tail (commentLength?_eq_none hlength))).isGap
  | case7 start p first rest here cause hlexeme =>
      intro hline tokens hitems
      cases tokens with
      | nil => cases hitems
      | cons token tokens => cases (List.cons.inj hitems).1

end Line

/-! ## Covering a source -/

theorem IsLine.rest {line : List Char} (h : IsLine line) : LineRest line := by
  obtain ⟨body, hbody, rfl⟩ := h
  exact .more hbody

section Lines

variable {source : Source}

theorem enterLine_covers (number : Nat) (state : LexState) {line : List Char}
    (hline : LineRest line) {tokens later : List (Located Token)} {chars : List (Located Char)}
    (hitems : (enterLine source number state line).1 = tokens.map .ok)
    (hlater : (enterLine source number state line).2.entry.Covers chars later) :
    state.entry.Covers (locate source ⟨number, 1⟩ line ++ chars) (tokens ++ later) := by
  unfold enterLine at hitems hlater
  cases hentry : state.entry with
  | fresh =>
      rw [hentry] at hitems hlater
      exact cutLine_covers _ _ _ hline tokens hitems hlater
  | recovering => trivial
  | comment =>
      rw [hentry] at hitems hlater
      cases hlength : commentLength? line with
      | some length =>
          simp only [hlength] at hitems hlater
          obtain ⟨body, rest, rfl, rfl, hbody⟩ := commentLength?_eq_some hlength
          rw [List.take_left, List.drop_left] at hitems hlater
          refine ⟨locate source ⟨number, 1⟩ body,
            locate source (Position.afterAll ⟨number, 1⟩ body) rest ++ chars, ?_, ?_, ?_⟩
          · rw [locate_append, List.append_assoc]
          · rwa [textOf_locate]
          · exact cutLine_covers _ _ _ (hline.of_append body) tokens hitems hlater
      | none =>
          simp only [hlength] at hitems hlater
          obtain rfl : tokens = [] := List.map_eq_nil_iff.mp hitems.symm
          rw [hentry] at hlater
          obtain ⟨body, rest, rfl, hbody, hrest⟩ := hlater
          refine ⟨locate source ⟨number, 1⟩ line ++ body, rest, ?_, ?_, hrest⟩
          · rw [List.append_assoc]
          · rw [textOf_append, textOf_locate]
            exact hbody.of_line hline (commentLength?_eq_none hlength)

/-- Lines that give tokens only can all be read, and their characters are covered by the tokens. -/
theorem cutLinesFrom_covers {number : Nat} {state : LexState} {lines : List (Option (List Char))}
    {tokens : List (Located Token)} (hlines : ∀ line, some line ∈ lines → IsLine line)
    (h : cutLinesFrom source number state lines = tokens.map .ok) :
    ∃ chars, Reading.charactersFrom source number lines = chars.map some ∧
      state.entry.Covers chars tokens := by
  induction lines generalizing number state tokens with
  | nil =>
      rw [cutLinesFrom] at h
      split at h
      next =>
        cases tokens with
        | nil => cases h
        | cons token tokens => cases (List.cons.inj h).1
      next hcomment =>
        obtain rfl : tokens = [] := List.map_eq_nil_iff.mp h.symm
        refine ⟨[], rfl, ?_⟩
        cases hentry : state.entry with
        | fresh => exact .gap .nil
        | comment => exact absurd hentry hcomment
        | recovering => trivial
  | cons line lines ih =>
      cases line with
      | none =>
          cases tokens with
          | nil => cases h
          | cons token tokens => cases (List.cons.inj h).1
      | some line =>
          have hboth : (enterLine source number state line).1 ++
              cutLinesFrom source (number + 1) (enterLine source number state line).2 lines =
                tokens.map .ok := h
          obtain ⟨own, later, rfl, hown, hlater⟩ := List.append_eq_map_iff.mp hboth
          obtain ⟨chars, hchars, hcovers⟩ :=
            ih (fun line hmem => hlines line (List.mem_cons_of_mem _ hmem)) hlater.symm
          refine ⟨locate source ⟨number, 1⟩ line ++ chars, ?_, ?_⟩
          · rw [Reading.charactersFrom, hchars, List.map_append]
          · have hline := (hlines line List.mem_cons_self).rest
            exact enterLine_covers number state hline hown.symm hcovers

end Lines

end AccumulatorC
