import AccumulatorC.Proofs.Text.LineEnds
import AccumulatorC.Proofs.TokenCoverage

/-!
# Tokens that are set apart

Every text of spelled tokens with blanks and comments between them is read as these tokens. This is
shown from the last character to the first, on the lines that are left from some character on.
-/

namespace AccumulatorC

/-- Tokens are written in a text: each one as a spelling of it that a blank or the end of the text
follows, with blanks and comments before, between and after them. -/
inductive Separated : List Token → List Char → Prop
  | gap {gap : List Char} (hgap : IsGap gap) : Separated [] gap
  | token {gap text after : List Char} {token : Token} {tokens : List Token} (hgap : IsGap gap)
      (htext : token.Spelling text) (hafter : Lexeme.SetOff after)
      (hrest : Separated tokens after) : Separated (token :: tokens) (gap ++ text ++ after)

/-! ## Cutting what is left of a source -/

/-- Some items are tokens and no errors. -/
def AreTokens (items : List LexItem) (tokens : List Token) : Prop :=
  ∃ located : List (Located Token), items = located.map .ok ∧ located.map (·.value) = tokens

/-- Characters are divided into what is left of a line and the lines after it. -/
structure Divides (text rest : List Char) (lines : List (List Char)) : Prop where
  left : LineRest rest
  later : ∀ line ∈ lines, IsLine line
  whole : rest ++ lines.flatten = text

/-- The tokens and errors of what is left of a line and of the lines after it. -/
def cutRest (source : Source) (start : Location) (p : Position) (number : Nat) (rest : List Char)
    (lines : List (List Char)) : List LexItem :=
  let (items, state) := cutLine source start p rest
  items ++ cutLinesFrom source number state (lines.map some)

/-- Characters are read as tokens, however they are divided into lines. -/
def ReadAs (text : List Char) (tokens : List Token) : Prop :=
  ∀ rest lines, Divides text rest lines → ∀ source start p number,
    AreTokens (cutRest source start p number rest lines) tokens

section Cutting

variable {source : Source} {start : Location} {p : Position} {number : Nat} {text rest : List Char}
  {lines : List (List Char)}

theorem cutRest_nil :
    cutRest source start p number [] lines =
      cutLinesFrom source number ⟨.fresh, start⟩ (lines.map some) := by
  rw [cutRest, cutLine]
  rfl

theorem cutRest_line {line : List Char} :
    cutRest source start p number [] (line :: lines) =
      cutRest source start ⟨number, 1⟩ (number + 1) line lines := cutRest_nil

/-- To tell how characters are read, it is enough to look at lines of which something is left. -/
theorem ReadAs.intro {tokens : List Token} (hne : text ≠ [])
    (h : ∀ first rest lines, Divides text (first :: rest) lines → ∀ source start p number,
      AreTokens (cutRest source start p number (first :: rest) lines) tokens) :
    ReadAs text tokens := by
  intro rest lines hdivides source start p number
  cases rest with
  | cons first rest => exact h first rest lines hdivides source start p number
  | nil =>
      cases lines with
      | nil => exact absurd hdivides.whole.symm hne
      | cons line lines =>
          obtain ⟨hline, hlines⟩ := List.forall_mem_cons.mp hdivides.later
          rw [cutRest_line]
          obtain ⟨body, hbody, rfl⟩ := hline
          obtain ⟨first, rest, hcons⟩ := List.exists_cons_of_ne_nil
            (List.append_ne_nil_of_right_ne_nil body (List.cons_ne_nil '\n' []))
          have hflat := hdivides.whole
          rw [List.flatten_cons] at hflat
          rw [hcons] at hflat ⊢
          exact h first rest lines ⟨hcons ▸ .more hbody, hlines, hflat⟩ source start ⟨number, 1⟩
            (number + 1)

theorem ReadAs.nil : ReadAs [] [] := by
  intro rest lines hdivides source start p number
  obtain ⟨rfl, hflat⟩ := List.append_eq_nil_iff.mp hdivides.whole
  cases lines with
  | nil => exact ⟨[], cutRest_nil, rfl⟩
  | cons line lines =>
      obtain ⟨body, -, rfl⟩ := hdivides.later line List.mem_cons_self
      simp at hflat

theorem ReadAs.blank {c : Char} {tokens : List Token} (hblank : Lexeme.isBlank c = true)
    (h : ReadAs text tokens) : ReadAs (c :: text) tokens := by
  apply ReadAs.intro (List.cons_ne_nil _ _)
  intro first rest lines hdivides source start p number
  obtain ⟨rfl, hwhole⟩ := List.cons.inj hdivides.whole
  rw [cutRest, cutLine_blank _ _ _ hblank]
  exact h rest lines ⟨hdivides.left.tail, hdivides.later, hwhole⟩ source _ _ number

/-- What begins a text and has no newline begins the line. -/
theorem Divides.exists_append {first after : List Char} (h : Divides (first ++ after) rest lines)
    (hne : rest ≠ []) (hfirst : '\n' ∉ first) :
    ∃ more, rest = first ++ more ∧ Divides after more lines := by
  have hfront : first <+: rest ++ lines.flatten := h.whole ▸ List.prefix_append first after
  obtain ⟨more, rfl⟩ := h.left.prefix_of_prefix hne hfirst hfront
  have hwhole := h.whole
  rw [List.append_assoc] at hwhole
  exact ⟨more, rfl, h.left.of_append first, h.later, List.append_cancel_left hwhole⟩

theorem ReadAs.token {token : Token} {after : List Char} {tokens : List Token}
    (htext : token.Spelling text) (hafter : Lexeme.SetOff after) (h : ReadAs after tokens) :
    ReadAs (text ++ after) (token :: tokens) := by
  obtain ⟨first, taken, rfl⟩ := htext.exists_cons
  apply ReadAs.intro (List.cons_ne_nil _ _)
  intro c rest lines hdivides source start p number
  obtain ⟨more, hrest, hmore⟩ :=
    hdivides.exists_append (List.cons_ne_nil _ _) htext.newline_not_mem
  have hset : Lexeme.SetOff more := by
    intro c hc
    apply hafter c
    rw [← hmore.whole, List.head?_append, hc]
    rfl
  obtain ⟨located, hlocated, hvalues⟩ := h more lines hmore source (.cell source p)
    (p.afterAll (first :: taken)) number
  rw [hrest, cutRest, cutLine_spelling source start p htext hset]
  exact ⟨_ :: located, congrArg (List.cons _) hlocated, congrArg _ hvalues⟩

/-! ## Comments -/

/-- The tokens and errors after a comment that is open in what is left of a line. -/
def cutComment (source : Source) (start : Location) (p : Position) (number : Nat)
    (rest : List Char) (lines : List (List Char)) : List LexItem :=
  match commentLength? rest with
  | some length =>
      cutRest source start (p.afterAll (rest.take length)) number (rest.drop length) lines
  | none => cutLinesFrom source number ⟨.comment, start⟩ (lines.map some)

theorem cutRest_blockComment :
    cutRest source start p number ('/' :: '*' :: rest) lines =
      cutComment source (.cell source p) (p.afterAll ['/', '*']) number rest lines := by
  have hread : Lexeme.read '/' ('*' :: rest) = .blockComment := rfl
  rw [cutRest, cutLine, cutComment]
  simp only [hread, List.drop_succ_cons, List.drop_zero]
  cases commentLength? rest <;> rfl

theorem cutLinesFrom_comment {line : List Char} :
    cutLinesFrom source number ⟨.comment, start⟩ ((line :: lines).map some) =
      cutComment source start ⟨number, 1⟩ (number + 1) line lines := by
  rw [List.map_cons, cutLinesFrom, enterLine, cutComment]
  simp only
  cases commentLength? line <;> rfl

theorem ClosesComment.end_infix {body : List Char} (h : ClosesComment body) :
    commentEnd <:+: body := by
  obtain ⟨inner, rfl, -⟩ := h
  exact (List.suffix_append inner commentEnd).isInfix

theorem ClosesComment.eq_of_prefix {first second : List Char} (hfirst : ClosesComment first)
    (hsecond : ClosesComment second) (h : first <+: second) : first = second := by
  obtain ⟨inner, rfl, hinner⟩ := hsecond
  have hend : inner ++ commentEnd = inner ++ ['*'] ++ ['/'] := by simp [commentEnd]
  rw [hend] at h ⊢
  rcases List.prefix_concat_iff.mp h with h | h
  · exact h
  · exact absurd (hfirst.end_infix.trans h.isInfix) hinner

/-- Only one text that begins another one closes a comment. -/
theorem ClosesComment.eq_of_append {first second after rest : List Char}
    (hfirst : ClosesComment first) (hsecond : ClosesComment second)
    (h : first ++ after = second ++ rest) : first = second ∧ after = rest := by
  have heq : first = second := by
    rcases List.prefix_or_prefix_of_prefix (List.prefix_append first after)
      (h ▸ List.prefix_append second rest) with hfront | hfront
    · exact hfirst.eq_of_prefix hsecond hfront
    · exact (hsecond.eq_of_prefix hfirst hfront).symm
  subst heq
  exact ⟨rfl, List.append_cancel_left h⟩

/-- A comment that is not closed on a line is closed by what follows the line. -/
theorem ClosesComment.exists_of_line {body after line more : List Char} (h : ClosesComment body)
    (hline : LineRest line) (hopen : ¬commentEnd <:+: line) (hwhole : line ++ more = body ++ after) :
    ∃ rest, ClosesComment rest ∧ more = rest ++ after := by
  rcases List.append_eq_append_iff.mp hwhole with ⟨rest, rfl, hmore⟩ | ⟨beyond, rfl, -⟩
  · refine ⟨rest, ?_, hmore⟩
    cases hline with
    | done => exact h
    | @more start hstart =>
        obtain ⟨inner, hinner, hnot⟩ := h
        rw [List.append_assoc, List.singleton_append] at hinner
        rcases List.append_eq_append_iff.mp hinner with ⟨beyond, rfl, hbeyond⟩ | ⟨beyond, rfl, hbeyond⟩
        · rcases List.cons_eq_append_iff.mp hbeyond with ⟨-, hend⟩ | ⟨inner, rfl, rfl⟩
          · cases hend
          · refine ⟨inner, rfl, fun hinfix => hnot ?_⟩
            apply hinfix.trans
            rw [List.append_assoc, List.cons_append]
            exact ((List.suffix_cons _ _).trans (List.suffix_append _ _)).isInfix
        · -- The newline of the line is no part of the sign that closes the comment.
          have hmem : '\n' ∈ commentEnd := by simp [hbeyond]
          exact absurd hmem (by decide)
  · exact absurd (h.end_infix.trans (List.prefix_append body beyond).isInfix) hopen

/-- Where a comment is open in what is left of a line, it is closed there or on a later line. -/
theorem Divides.closed_or_open {body after : List Char} (hbody : ClosesComment body)
    (h : Divides (body ++ after) rest lines) :
    (∃ more, rest = body ++ more ∧ commentLength? rest = some body.length ∧
      Divides after more lines) ∨
    ∃ later, commentLength? rest = none ∧ ClosesComment later ∧
      lines.flatten = later ++ after := by
  cases hlength : commentLength? rest with
  | some length =>
      obtain ⟨closing, more, rfl, rfl, hclosing⟩ := commentLength?_eq_some hlength
      have hwhole := h.whole
      rw [List.append_assoc] at hwhole
      obtain ⟨rfl, hmore⟩ := hclosing.eq_of_append hbody hwhole
      exact .inl ⟨more, rfl, rfl, h.left.of_append _, h.later, hmore⟩
  | none =>
      obtain ⟨later, hlater, hflat⟩ :=
        hbody.exists_of_line h.left (commentLength?_eq_none hlength) h.whole
      exact .inr ⟨later, rfl, hlater, hflat⟩

/-- What follows an open comment is read from where the comment is closed. -/
theorem ReadAs.closed {body after rest : List Char} {lines : List (List Char)}
    {tokens : List Token} {p : Position} {number : Nat} (h : ReadAs after tokens)
    (hbody : ClosesComment body) (hdivides : Divides (body ++ after) rest lines) :
    AreTokens (cutComment source start p number rest lines) tokens := by
  rcases hdivides.closed_or_open hbody with
    ⟨more, rfl, hlength, hmore⟩ | ⟨later, hlength, hlater, hflat⟩
  · rw [cutComment, hlength]
    simp only [List.take_left, List.drop_left]
    exact h _ _ hmore _ _ _ _
  · cases lines with
    | nil =>
        obtain ⟨inner, rfl, -⟩ := hlater
        simp [commentEnd] at hflat
    | cons line lines =>
        obtain ⟨hline, hlines⟩ := List.forall_mem_cons.mp hdivides.later
        rw [cutComment, hlength]
        simp only [cutLinesFrom_comment]
        exact h.closed hlater ⟨hline.rest, hlines, hflat⟩
  termination_by lines.length

theorem append_newline_inj {first second after rest : List Char} (hfirst : '\n' ∉ first)
    (hsecond : '\n' ∉ second) (h : first ++ '\n' :: after = second ++ '\n' :: rest) :
    first = second ∧ after = rest := by
  rcases List.append_eq_append_iff.mp h with ⟨beyond, rfl, hbeyond⟩ | ⟨beyond, rfl, hbeyond⟩
  all_goals cases beyond <;> simp_all

theorem ReadAs.comment {comment after : List Char} {tokens : List Token}
    (h : ReadAs after tokens) (hcomment : IsComment comment) :
    ReadAs (comment ++ after) tokens := by
  cases hcomment with
  | @line body hbody =>
      apply ReadAs.intro (List.cons_ne_nil _ _)
      intro first rest lines hdivides source start p number
      obtain ⟨text, htext, hline⟩ := hdivides.left.exists_body (List.cons_ne_nil _ _)
      have hwhole : text ++ '\n' :: lines.flatten = '/' :: '/' :: body ++ '\n' :: after := by
        simpa [hline] using hdivides.whole
      obtain ⟨rfl, hafter⟩ := append_newline_inj htext (by simp [hbody]) hwhole
      have hread : Lexeme.read '/' ('/' :: (body ++ ['\n'])) = .lineComment := rfl
      have hcut : cutLine source start p ('/' :: '/' :: body ++ ['\n']) =
          ([], ⟨.fresh, .cell source p⟩) := by
        rw [List.cons_append, List.cons_append, cutLine]
        simp only [hread]
      have hrest := h [] lines ⟨.done, hdivides.later, hafter⟩ source (.cell source p) p number
      rw [hline, cutRest, hcut]
      rwa [cutRest_nil] at hrest
  | block hbody =>
      apply ReadAs.intro (List.cons_ne_nil _ _)
      intro first rest lines hdivides source start p number
      have hopen : Divides (['/', '*'] ++ (_ ++ after)) (first :: rest) lines := hdivides
      obtain ⟨more, hrest, hmore⟩ := hopen.exists_append (List.cons_ne_nil _ _) (by decide)
      rw [hrest, List.cons_append, List.singleton_append, cutRest_blockComment]
      exact h.closed hbody hmore

theorem ReadAs.gap {gap after : List Char} {tokens : List Token} (h : ReadAs after tokens)
    (hgap : IsGap gap) : ReadAs (gap ++ after) tokens := by
  induction hgap with
  | nil => exact h
  | blank hblank _ ih => exact ih.blank hblank
  | comment htext _ ih =>
      rw [List.append_assoc]
      exact ih.comment htext

theorem Separated.readAs {tokens : List Token} (h : Separated tokens text) :
    ReadAs text tokens := by
  induction h with
  | gap hgap =>
      have hread := ReadAs.nil.gap hgap
      rwa [List.append_nil] at hread
  | token hgap htext hafter _ ih =>
      rw [List.append_assoc]
      exact (ReadAs.token htext hafter ih).gap hgap

end Cutting

/-! ## The ends of lines -/

theorem commentEnd_infix_of_unreturned {text : List Char} (h : commentEnd <:+: unreturned text) :
    commentEnd <:+: text := by
  induction text with
  | nil => exact h
  | cons c rest ih =>
      obtain hkeep | ⟨-, -, hdrop⟩ := unreturned_cons c rest
      · rw [hkeep] at h
        rcases List.infix_cons_iff.mp h with hfront | hinfix
        · obtain ⟨rfl, after, hafter⟩ := commentEnd_prefix_cons.mp hfront
          obtain hhead | hhead := head?_unreturned rest
          · rw [hafter] at hhead
            obtain ⟨beyond, rfl⟩ := List.head?_eq_some_iff.mp hhead.symm
            exact (List.prefix_append commentEnd beyond).isInfix
          · simp [hafter] at hhead
        · exact (ih hinfix).trans (List.suffix_cons c rest).isInfix
      · rw [hdrop] at h
        exact (ih h).trans (List.suffix_cons c rest).isInfix

theorem ClosesComment.unreturned {body : List Char} (h : ClosesComment body) :
    ClosesComment (unreturned body) := by
  obtain ⟨inner, rfl, hinner⟩ := h
  refine ⟨AccumulatorC.unreturned inner, unreturned_append fun _ => by simp [commentEnd], ?_⟩
  have hstar : AccumulatorC.unreturned (inner ++ ['*']) = AccumulatorC.unreturned inner ++ ['*'] :=
    unreturned_append fun _ => by simp
  rw [← hstar]
  exact mt commentEnd_infix_of_unreturned hinner

theorem IsComment.unreturned {text : List Char} (h : IsComment text) :
    IsComment (unreturned text) := by
  cases h with
  | @line body hbody =>
      have hline : AccumulatorC.unreturned (body.reverse.reverse ++ ['\n']) =
          closeText body.reverse ++ ['\n'] := unreturned_line (mt List.mem_reverse.mp hbody)
      rw [List.reverse_reverse] at hline
      rw [unreturned_of_ne (by decide), unreturned_of_ne (by decide), hline]
      apply IsComment.line
      intro hmem
      exact hbody (List.mem_reverse.mp (mem_of_mem_closeText hmem))
  | block hbody =>
      rw [unreturned_of_ne (by decide), unreturned_of_ne (by decide)]
      exact .block hbody.unreturned

theorem IsComment.getLast?_ne {text : List Char} (h : IsComment text) :
    text.getLast? ≠ some '\r' := by
  cases h with
  | line => simp [List.getLast?_cons]
  | block hbody =>
      obtain ⟨inner, rfl, -⟩ := hbody
      simp [commentEnd, List.getLast?_cons]

theorem IsGap.unreturned {gap : List Char} (h : IsGap gap) : IsGap (unreturned gap) := by
  induction h with
  | nil => exact .nil
  | @blank c rest hblank _ ih =>
      obtain hkeep | ⟨-, -, hdrop⟩ := unreturned_cons c rest
      · exact hkeep ▸ .blank hblank ih
      · exact hdrop ▸ ih
  | comment htext _ ih =>
      rw [unreturned_append fun hlast => absurd hlast htext.getLast?_ne]
      exact .comment htext.unreturned ih

/-- A token does not end in a carriage return, though a literal may have one inside. -/
theorem Token.Spelling.getLast?_ne {token : Token} {text : List Char} (h : token.Spelling text) :
    text.getLast? ≠ some '\r' := by
  have hword : ∀ name, IsWord name → '\r' ∉ name.toList := by
    rintro name ⟨first, rest, hname, hstart, hrest⟩ hmem
    rw [hname] at hmem
    cases hmem with
    | head => cases hstart
    | tail _ hmem => cases hrest _ hmem
  cases h with
  | identifier hname _ => exact fun hlast => hword _ hname (List.mem_of_getLast? hlast)
  | keyword word => exact fun hlast => hword _ word.isWord_text (List.mem_of_getLast? hlast)
  | decimal _ hdigits _ => exact fun hlast => nomatch hdigits _ (List.mem_of_getLast? hlast)
  | hexadecimal hx hne hdigits _ =>
      intro hlast
      rw [List.getLast?_cons_cons, List.getLast?_cons_of_ne_nil hne] at hlast
      cases hdigits _ (List.mem_of_getLast? hlast)
  | character => simp [List.getLast?_cons]
  | string => simp [List.getLast?_cons]
  | inclusion => decide
  | mark m => cases m <;> decide

namespace Separated

variable {tokens : List Token} {text : List Char}

theorem unreturned (h : Separated tokens text) : Separated tokens (unreturned text) := by
  induction h with
  | gap hgap => exact .gap hgap.unreturned
  | @token gap text after token tokens hgap htext hafter _ ih =>
      obtain ⟨first, rest, hcons⟩ := htext.exists_cons
      have hhead : (text ++ after).head? ≠ some '\n' := by
        intro hhead
        apply htext.newline_not_mem
        rw [hcons] at hhead ⊢
        exact Option.some.inj hhead ▸ List.mem_cons_self
      have hset : Lexeme.SetOff (AccumulatorC.unreturned after) := by
        intro c hc
        rcases head?_unreturned after with hsame | hnewline
        · exact hafter c (hsame ▸ hc)
        · rw [hnewline] at hc
          exact Option.some.inj hc ▸ rfl
      rw [List.append_assoc, unreturned_append fun _ => hhead,
        unreturned_append fun hlast => absurd hlast htext.getLast?_ne,
        unreturned_of_not_mem htext.newline_not_mem, ← List.append_assoc]
      exact .token hgap.unreturned htext hset ih

/-- A newline may be added at the end. -/
theorem append_newline (h : Separated tokens text) : Separated tokens (text ++ ['\n']) := by
  induction h with
  | gap hgap => exact .gap (hgap.append (.blank rfl .nil))
  | @token gap text after token tokens hgap htext hafter _ ih =>
      rw [List.append_assoc]
      apply Separated.token hgap htext _ ih
      cases after with
      | nil => exact .blank rfl
      | cons first rest => exact .blank (hafter first rfl)

end Separated

/-- Lexing undoes spelling: a text in which tokens are set apart is read as these tokens. -/
theorem Reading.tokens_of_separated (name : String) {tokens : List Token} {text : List Char}
    (h : Separated tokens text) : ∃ located : List (Located Token),
      (ofBytes name (String.ofList text).toUTF8).tokens = .ok located ∧
        located.map (·.value) = tokens := by
  obtain ⟨lines, tail, hlines, hends, htail, hflat⟩ := lines_of_text name text
  have hwhole : Separated tokens (unreturned text ++ tail) := by
    rcases htail with rfl | rfl
    · rw [List.append_nil]
      exact h.unreturned
    · exact h.unreturned.append_newline
  obtain ⟨located, hlocated, hvalues⟩ := hwhole.readAs [] lines ⟨.done, hends, hflat⟩
    (ofBytes name (String.ofList text).toUTF8).source
    (ofBytes name (String.ofList text).toUTF8).start .first 1
  rw [cutRest_nil, ← hlines] at hlocated
  exact ⟨located, tokens_of_items located hlocated, hvalues⟩

end AccumulatorC
