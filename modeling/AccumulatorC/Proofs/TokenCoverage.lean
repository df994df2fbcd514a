import AccumulatorC.Proofs.Token.Covering

/-!
# Tokens cover the text of a source

A source that gives tokens and no errors is covered by them: they stand in order and apart, each at
the longest text that spells a token there, and around them there are blanks and comments only. The
text of a token by itself gives this token again.
-/

namespace AccumulatorC

/-! ## The text at a location -/

/-- A character stands at a location. -/
def Location.Holds (l : Location) (c : Located Char) : Prop :=
  l.start ≤ c.location.start ∧ c.location.start < l.stop

instance (l : Location) (c : Located Char) : Decidable (l.Holds c) :=
  inferInstanceAs (Decidable (_ ∧ _))

/-- The text from the start of a location to its end. -/
def Location.textIn (l : Location) (chars : List (Located Char)) : List Char :=
  textOf (chars.filter (l.Holds ·))

/-- The text from the start of a location on. -/
def Location.textFrom (l : Location) (chars : List (Located Char)) : List Char :=
  textOf (chars.filter (l.start ≤ ·.location.start))

section Ordered

variable {chars : List (Located Char)} {first last : Located Char}

theorem Located.InCell.start_lt_stop {c : Located Char} (h : c.InCell) :
    c.location.start < c.location.stop := by
  rw [h]
  exact Position.lt_advance

/-- The first one of characters in order starts no later than any other one. -/
theorem start_le_of_head (hord : chars.Pairwise Located.Precedes) (hcell : ∀ c ∈ chars, c.InCell)
    (hfirst : chars.head? = some first) :
    ∀ c ∈ chars, first.location.start ≤ c.location.start := by
  obtain ⟨rest, rfl⟩ := List.head?_eq_some_iff.mp hfirst
  intro c hmem
  cases hmem with
  | head => exact Position.le_refl
  | tail _ hmem =>
      have hbefore : first.Precedes c := List.rel_of_pairwise_cons hord hmem
      exact Position.le_trans (Position.le_of_lt (hcell first List.mem_cons_self).start_lt_stop)
        hbefore

/-- The last one of characters in order ends after any other one starts. -/
theorem start_lt_of_last (hord : chars.Pairwise Located.Precedes) (hcell : ∀ c ∈ chars, c.InCell)
    (hlast : chars.getLast? = some last) :
    ∀ c ∈ chars, c.location.start < last.location.stop := by
  obtain ⟨before, rfl⟩ := List.getLast?_eq_some_iff.mp hlast
  have hend : last.location.start < last.location.stop := (hcell last (by simp)).start_lt_stop
  intro c hmem
  rcases List.mem_append.mp hmem with hmem | hmem
  · have hbefore : c.Precedes last :=
      (List.pairwise_append.mp hord).2.2 c hmem last List.mem_cons_self
    exact Position.lt_of_lt_of_le (hcell c (by simp [hmem])).start_lt_stop
      (Position.le_trans hbefore (Position.le_of_lt hend))
  · rw [List.mem_singleton.mp hmem]
    exact hend

end Ordered

/-- A location goes from the first to the last of some characters. -/
def Location.Bounds (l : Location) (body : List (Located Char)) : Prop :=
  ∃ first last, body.head? = some first ∧ body.getLast? = some last ∧
    l = .span first.location last.location

namespace Location.Bounds

variable {l : Location} {before body after : List (Located Char)} (h : l.Bounds body)
  (hord : (before ++ body ++ after).Pairwise Located.Precedes)
  (hcell : ∀ c ∈ before ++ body ++ after, c.InCell)
include h hord hcell

/-- How a location divides the characters of a text: the ones before end before it starts, its own
stand between its ends, and the ones after start when it has ended. -/
theorem divides : l.start < l.stop ∧ (∀ c ∈ before, c.location.start < l.start) ∧
    (∀ c ∈ body, l.Holds c) ∧ ∀ c ∈ after, l.stop ≤ c.location.start := by
  obtain ⟨first, last, hfirst, hlast, rfl⟩ := h
  obtain ⟨hleft, -, hacross⟩ := List.pairwise_append.mp hord
  obtain ⟨-, hown, hbefore⟩ := List.pairwise_append.mp hleft
  have hmem : first ∈ body := List.mem_of_mem_head? hfirst
  have hlastMem : last ∈ body := List.mem_of_getLast? hlast
  have hcells : ∀ c ∈ body, c.InCell := fun c hc => hcell c (by simp [hc])
  have hstop := start_lt_of_last hown hcells hlast
  refine ⟨hstop first hmem, fun c hc => ?_, fun c hc => ⟨?_, hstop c hc⟩, fun c hc => ?_⟩
  · exact Position.lt_of_lt_of_le (hcell c (by simp [hc])).start_lt_stop (hbefore c hc first hmem)
  · exact start_le_of_head hown hcells hfirst c hc
  · exact hacross last (List.mem_append_right _ hlastMem) c hc

/-- The text from the start of a location to its end is that of its characters. -/
theorem textIn_eq : l.textIn (before ++ body ++ after) = textOf body := by
  obtain ⟨-, hbefore, hown, hafter⟩ := h.divides hord hcell
  have hnotBefore : before.filter (l.Holds ·) = [] :=
    List.filter_eq_nil_iff.mpr fun c hc hholds =>
      Position.not_le.mpr (hbefore c hc) (of_decide_eq_true hholds).1
  have hall : body.filter (l.Holds ·) = body :=
    List.filter_eq_self.mpr fun c hc => decide_eq_true (hown c hc)
  have hnotAfter : after.filter (l.Holds ·) = [] :=
    List.filter_eq_nil_iff.mpr fun c hc hholds =>
      Position.not_lt.mpr (hafter c hc) (of_decide_eq_true hholds).2
  rw [Location.textIn, List.filter_append, List.filter_append, hnotBefore, hall, hnotAfter]
  simp

end Location.Bounds

/-! ## The place of a token -/

/-- A token stands at its own characters, which others follow. -/
structure Placed (token : Located Token) (lexeme after : List (Located Char)) : Prop where
  location : ∃ first last, lexeme.head? = some first ∧ lexeme.getLast? = some last ∧
    token.location = .span first.location last.location
  spelling : token.value.Spelling (textOf lexeme)
  longest : NoLongerToken lexeme.length (textOf (lexeme ++ after))

theorem Placed.bounds {token : Located Token} {lexeme after : List (Located Char)}
    (h : Placed token lexeme after) : token.location.Bounds lexeme := h.location

/-- Where one of the tokens stands that cover characters, and what covers the rest. -/
theorem Covers.exists_from {chars : List (Located Char)} {front later : List (Located Token)}
    {token : Located Token} (h : Covers chars (front ++ token :: later)) :
    ∃ before lexeme after, chars = before ++ lexeme ++ after ∧
      Placed token lexeme after ∧ Covers after later := by
  induction front generalizing chars with
  | nil =>
      cases h with
      | @token gap lexeme rest first last _ _ _ hfirst hlast hspelling hlongest _ hrest =>
          exact ⟨gap, lexeme, rest, rfl, ⟨⟨first, last, hfirst, hlast, rfl⟩, hspelling, hlongest⟩,
            hrest⟩
  | cons other front ih =>
      cases h with
      | @token gap lexeme rest _ _ _ _ _ _ _ _ _ _ hrest =>
          obtain ⟨before, own, after, rfl, hplaced, hlater⟩ := ih hrest
          exact ⟨gap ++ lexeme ++ before, own, after, by simp, hplaced, hlater⟩

theorem Covers.exists_placed {chars : List (Located Char)} {tokens : List (Located Token)}
    (h : Covers chars tokens) {token : Located Token} (hmem : token ∈ tokens) :
    ∃ before lexeme after, chars = before ++ lexeme ++ after ∧
      Placed token lexeme after := by
  obtain ⟨front, later, rfl⟩ := List.append_of_mem hmem
  obtain ⟨before, lexeme, after, hchars, hplaced, -⟩ := h.exists_from
  exact ⟨before, lexeme, after, hchars, hplaced⟩

namespace Placed

variable {token : Located Token} {before lexeme after : List (Located Char)}
  (h : Placed token lexeme after)
  (hord : (before ++ lexeme ++ after).Pairwise Located.Precedes)
  (hcell : ∀ c ∈ before ++ lexeme ++ after, c.InCell)
include h hord hcell

/-- A token divides the characters of a text. -/
theorem divides : token.location.start < token.location.stop ∧
    (∀ c ∈ before, c.location.start < token.location.start) ∧
    (∀ c ∈ lexeme, token.location.Holds c) ∧
    ∀ c ∈ after, token.location.stop ≤ c.location.start :=
  h.bounds.divides hord hcell

/-- The text from the start of a token to its end is its own text. -/
theorem textIn_eq : token.location.textIn (before ++ lexeme ++ after) = textOf lexeme :=
  h.bounds.textIn_eq hord hcell

/-- The text from the start of a token on is its own text and everything after it. -/
theorem textFrom_eq :
    token.location.textFrom (before ++ lexeme ++ after) = textOf (lexeme ++ after) := by
  obtain ⟨hproper, hbefore, hown, hafter⟩ := h.divides hord hcell
  have hnotBefore : before.filter (token.location.start ≤ ·.location.start) = [] :=
    List.filter_eq_nil_iff.mpr fun c hc hle =>
      Position.not_le.mpr (hbefore c hc) (of_decide_eq_true hle)
  have hall : lexeme.filter (token.location.start ≤ ·.location.start) = lexeme :=
    List.filter_eq_self.mpr fun c hc => decide_eq_true (hown c hc).1
  have hallAfter : after.filter (token.location.start ≤ ·.location.start) = after :=
    List.filter_eq_self.mpr fun c hc =>
      decide_eq_true (Position.le_trans (Position.le_of_lt hproper) (hafter c hc))
  rw [Location.textFrom, List.filter_append, List.filter_append, hnotBefore, hall, hallAfter]
  simp

end Placed

/-- The tokens that cover characters stand in order and apart. -/
theorem Covers.pairwise {chars : List (Located Char)} {tokens : List (Located Token)}
    (h : Covers chars tokens) (hord : chars.Pairwise Located.Precedes) :
    tokens.Pairwise Located.Precedes := by
  induction h with
  | gap => exact .nil
  | token _ hfirst hlast _ _ _ hrest ih =>
      obtain ⟨-, hlater, hacross⟩ := List.pairwise_append.mp hord
      refine .cons (fun token hmem => ?_) (ih hlater)
      obtain ⟨before, own, after, rfl, hplaced⟩ := hrest.exists_placed hmem
      obtain ⟨next, _, hnext, _, hlocation⟩ := hplaced.location
      rw [Located.Precedes, hlocation]
      apply hacross _ (List.mem_append_right _ (List.mem_of_getLast? hlast))
      have := List.mem_of_mem_head? hnext
      simp [this]

/-! ## Sources without errors -/

namespace Reading

/-- A reading that succeeds has found nothing but tokens. -/
theorem items_of_tokens {reading : Reading} {tokens : List (Located Token)}
    (h : reading.tokens = .ok tokens) : reading.items = tokens.map .ok := by
  unfold Reading.tokens at h
  split at h
  next hnone =>
    cases h
    -- No item is an error, so each is the token that it gives.
    generalize reading.items = items at hnone ⊢
    induction items with
    | nil => rfl
    | cons item items ih =>
        cases item with
        | error cause => cases hnone
        | ok token => exact congrArg _ (ih hnone)
  next => cases h

theorem tokens_of_items {reading : Reading} (tokens : List (Located Token))
    (h : reading.items = tokens.map .ok) : reading.tokens = .ok tokens := by
  unfold Reading.tokens
  rw [h]
  split
  next =>
    rw [List.filterMap_map]
    exact congrArg Except.ok List.filterMap_some
  next hsome =>
    apply absurd _ hsome
    rw [List.filterMap_map]
    exact List.filterMap_eq_nil_iff.mpr fun _ _ => rfl

/-- A spelling on a line of its own is read as its token. -/
theorem tokens_of_line {reading : Reading} {token : Token} {text : List Char}
    (h : token.Spelling text) (hlines : reading.lines = [some (text ++ ['\n'])]) :
    ∃ location, reading.tokens = .ok [⟨token, location⟩] := by
  obtain ⟨first, rest, rfl⟩ := h.exists_cons
  have hafter : Lexeme.SetOff ['\n'] := .blank rfl
  have hline := cutLine_spelling reading.source reading.start ⟨1, 1⟩ h hafter
  rw [cutLine_blank _ _ _ rfl, cutLine] at hline
  have hwhole : reading.items =
      (cutLine reading.source reading.start ⟨1, 1⟩ (first :: rest ++ ['\n'])).1 ++
        cutLinesFrom reading.source 2
          (cutLine reading.source reading.start ⟨1, 1⟩ (first :: rest ++ ['\n'])).2 [] := by
    rw [items, hlines]
    rfl
  rw [hline] at hwhole
  exact ⟨_, tokens_of_items [_] hwhole⟩

/-- The text of a token, alone in a source, gives the token and nothing else. -/
theorem tokens_of_spelling (name : String) {token : Token} {text : List Char}
    (h : token.Spelling text) : ∃ location,
      (ofBytes name (String.ofList text).toUTF8).tokens = .ok [⟨token, location⟩] := by
  obtain ⟨first, rest, rfl⟩ := h.exists_cons
  apply tokens_of_line h
  rw [ofBytes, ofLines, readLines_of_line (List.cons_ne_nil _ _) h.newline_not_mem]
  simp

end Reading

/-- A token stands for the text at its place among the characters of a source: the text is not
empty, spells the token and no longer text there spells one, and alone in a source it gives the
token. -/
structure Located.Stands (token : Located Token) (chars : List (Located Char)) : Prop where
  nonempty : token.location.start < token.location.stop
  spelling : token.value.Spelling (token.location.textIn chars)
  longest : NoLongerToken (token.location.textIn chars).length (token.location.textFrom chars)
  alone : ∀ name, ∃ location,
    (Reading.ofBytes name (String.ofList (token.location.textIn chars)).toUTF8).tokens =
      .ok [⟨token.value, location⟩]

/-- The bytes of a source, the texts of its lines, its characters, and the tokens that cover
them. -/
structure Reading.CoveredBy (reading : Reading) (bytes : ByteArray) (texts : List (List Char))
    (chars : List (Located Char)) (tokens : List (Located Token)) : Prop where
  /-- The bytes are those of the texts, with the ends of lines between them. -/
  joins : Joins bytes.data.toList (texts.map encode)
  /-- The characters are those of the texts, with a newline after each. -/
  text : textOf chars = texts.flatMap (· ++ ['\n'])
  characters : reading.characters = chars.map some
  covers : Covers chars tokens
  ordered : tokens.Pairwise Located.Precedes
  stands : ∀ token ∈ tokens, token.Stands chars

/-- A source that gives tokens and no errors is covered by its tokens. -/
theorem Reading.covered_by_tokens (name : String) (bytes : ByteArray)
    {tokens : List (Located Token)} (h : (ofBytes name bytes).tokens = .ok tokens) :
    ∃ texts chars, (ofBytes name bytes).CoveredBy bytes texts chars tokens := by
  obtain ⟨chars, hchars, hcovers⟩ :=
    cutLinesFrom_covers (fun _ => isLine_of_mem) (items_of_tokens h)
  obtain ⟨texts, hjoins, htext⟩ := texts_of_characters hchars
  have hord := pairwise_of_charactersFrom hchars
  have hcell : ∀ c ∈ chars, c.InCell := by
    intro c hmem
    obtain ⟨q, hq, -⟩ := cell_of_mem_charactersFrom
      (show some c ∈ charactersFrom (ofBytes name bytes).source 1 (ofBytes name bytes).lines from
        hchars ▸ List.mem_map_of_mem hmem)
    rw [Located.InCell, hq]
    rfl
  refine ⟨texts, chars, hjoins, htext, hchars, hcovers, hcovers.pairwise hord, ?_⟩
  intro token hmem
  obtain ⟨before, lexeme, after, rfl, hplaced⟩ := hcovers.exists_placed hmem
  have htextIn := hplaced.textIn_eq hord hcell
  exact {
    nonempty := (hplaced.divides hord hcell).1
    spelling := htextIn ▸ hplaced.spelling
    longest := by
      rw [htextIn, hplaced.textFrom_eq hord hcell, textOf_length]
      exact hplaced.longest
    alone := fun name => htextIn ▸ tokens_of_spelling name hplaced.spelling }

/-- A program with tabs, comments and a literal that looks like one. -/
def commentedText : String :=
  "char*\tp /* a pointer,\n\tnot set */ = \"/*\\n\"; // done\n"

/-- What is read from it. -/
def commentedReading : Reading := .ofBytes "<input>" commentedText.toUTF8

theorem commented_covered : ∃ tokens, commentedReading.tokens = .ok tokens ∧ tokens.length = 6 ∧
    ∃ texts chars, commentedReading.CoveredBy commentedText.toUTF8 texts chars tokens := by
  have hany : commentedReading.tokens.toOption.any
      (fun tokens => decide (tokens.length = 6)) = true := by
    decide +kernel
  obtain ⟨tokens, htokens, hlength⟩ := exists_eq_ok_of_any hany
  exact ⟨tokens, htokens, of_decide_eq_true hlength, Reading.covered_by_tokens _ _ htokens⟩

end AccumulatorC
