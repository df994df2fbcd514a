import AccumulatorC.Proofs.Text.Positions
import AccumulatorC.Proofs.Token.Spelling

/-!
# Going on after an error

An error gives up the rest of the line it occurs on. What comes next is what the lines after that
one give by themselves, with one exception: an unreadable line also takes a readable line after it
along.
-/

namespace AccumulatorC

/-! ## The errors of one line -/

section Line

variable {source : Source}

/-- The error of a line ends what the line gives, and stands at one of its characters. -/
def EndsAt (source : Source) (p : Position) (text : List Char)
    (result : List LexItem × LexState) : Prop :=
  ∀ before e after, result.1 = before ++ .error e :: after →
    after = [] ∧ result.2 = ⟨.fresh, e.location⟩ ∧ e.value ≠ .unreadableLine ∧
      e.value ≠ .unterminatedComment ∧ ∃ c ∈ locate source p text, c.location = e.location

theorem EndsAt.nil {p : Position} {text : List Char} {state : LexState} :
    EndsAt source p text ([], state) := by
  intro before e after h
  exact absurd h.symm (by simp)

/-- What is known of the rest of a line holds of the line. -/
theorem EndsAt.drop {p : Position} {rest text : List Char} {result : List LexItem × LexState}
    (taken : List Char) (h : EndsAt source (p.afterAll taken) rest result)
    (htext : text = taken ++ rest) : EndsAt source p text result := by
  intro before e after hitems
  obtain ⟨hafter, hstate, hread, hcomment, c, hmem, hplace⟩ := h before e after hitems
  refine ⟨hafter, hstate, hread, hcomment, c, ?_, hplace⟩
  rw [htext, locate_append]
  exact List.mem_append_right _ hmem

/-- A token in front changes nothing. -/
theorem EndsAt.cons {p : Position} {text : List Char} {token : Located Token}
    {items : List LexItem} {state : LexState} (h : EndsAt source p text (items, state)) :
    EndsAt source p text (.ok token :: items, state) := by
  intro before e after hitems
  cases before with
  | nil => cases hitems
  | cons first before => exact h before e after (List.cons.inj hitems).2

/-- At most one error is found in a line, and it ends the line. -/
theorem cutLine_endsAt (start : Location) (p : Position) (text : List Char) :
    EndsAt source p text (cutLine source start p text) := by
  fun_induction cutLine source start p text with
  | case1 => exact .nil
  | case2 start p first rest here hlexeme ih => exact .drop [first] ih rfl
  | case3 start p first rest here token more hlexeme taken items state hrest ih =>
      rw [hrest] at ih
      exact .cons (.drop taken ih (by rw [List.cons_append, List.take_append_drop]))
  | case4 => exact .nil
  | case5 start p first rest here hlexeme length hlength taken ih =>
      exact .drop taken ih (by rw [List.cons_append, List.take_append_drop])
  | case6 => exact .nil
  | case7 start p first rest here cause hlexeme =>
      intro before e after hitems
      cases before with
      | nil =>
          cases hitems
          obtain ⟨hread, hcomment⟩ := Lexeme.describes_of_read hlexeme
          exact ⟨rfl, rfl, hread, hcomment, _, List.mem_cons_self, rfl⟩
      | cons item before =>
          have hnil : [] = before ++ .error e :: after := (List.cons.inj hitems).2
          exact absurd hnil.symm (by simp)

theorem enterLine_endsAt (number : Nat) (state : LexState) (line : List Char) :
    EndsAt source ⟨number, 1⟩ line (enterLine source number state line) := by
  unfold enterLine
  split
  · exact cutLine_endsAt _ _ _
  · exact .nil
  · split
    next length _ =>
      exact .drop (line.take length) (cutLine_endsAt _ _ _) (List.take_append_drop _ _).symm
    next => exact .nil

end Line

/-! ## The errors of a source -/

/-- The number of lines that are given up after the line of an error. -/
def LexError.alsoLost (cause : LexError) (following : List (Option (List Char))) : Nat :=
  match cause, following with
  | .unreadableLine, some _ :: _ => 1
  | _, _ => 0

/-- The line that an error occurs on, as the last one of those read so far, beginning with the one
of a given number: it cannot be read, or the source ends with it inside of a comment, or the error
stands at one of its characters. -/
def Located.OccursAfter (e : Located LexError) (source : Source) (number : Nat)
    (read following : List (Option (List Char))) : Prop :=
  match e.value with
  | .unreadableLine => read.getLast? = some none
  | .unterminatedComment => following = []
  | _ => ∃ before line, read = before ++ [some line] ∧
      ∃ c ∈ locate source ⟨number + before.length, 1⟩ line, c.location = e.location

/-- What the lines of a source give around an error. -/
structure Recovers (source : Source) (number : Nat) (state : LexState)
    (lines : List (Option (List Char))) (before : List LexItem) (e : Located LexError)
    (after : List LexItem) (read following : List (Option (List Char))) : Prop where
  /-- The lines up to and with the one of the error, and those that follow. -/
  lines : lines = read ++ following
  /-- The error occurs on the last of the lines read. -/
  occurs : e.OccursAfter source number read following
  /-- It is the last item of these lines. -/
  ends : cutLinesFrom source number state read = before ++ [.error e]
  /-- What comes next is what the lines that follow give when they are entered afresh. -/
  resumes : after =
    cutLinesFrom source (number + read.length + e.value.alsoLost following)
      ⟨.fresh, e.location⟩ (following.drop (e.value.alsoLost following))

section Lines

variable {source : Source}

theorem Located.OccursAfter.cons {e : Located LexError} {number : Nat}
    {read following : List (Option (List Char))}
    (h : e.OccursAfter source (number + 1) read following) (line : Option (List Char)) : e.OccursAfter source number (line :: read) following := by
  unfold Located.OccursAfter at *
  split at h
  next =>
    cases read with
    | nil => cases h
    | cons => exact h
  next => exact h
  next =>
    obtain ⟨before, last, rfl, c, hmem, hplace⟩ := h
    refine ⟨line :: before, last, rfl, c, ?_, hplace⟩
    rwa [List.length_cons, Nat.add_comm before.length, ← Nat.add_assoc]

/-- A line in front gives its items first. -/
theorem Recovers.cons {number : Nat} {state next : LexState} {line : Option (List Char)}
    {lines read following : List (Option (List Char))} {items before after : List LexItem}
    {e : Located LexError}
    (hline : ∀ rest, cutLinesFrom source number state (line :: rest) =
      items ++ cutLinesFrom source (number + 1) next rest)
    (h : Recovers source (number + 1) next lines before e after read following) :
    Recovers source number state (line :: lines) (items ++ before) e after (line :: read)
      following where
  lines := by rw [h.lines, List.cons_append]
  occurs := h.occurs.cons line
  ends := by rw [hline, h.ends, List.append_assoc]
  resumes := by rw [h.resumes, List.length_cons, Nat.add_right_comm number, Nat.add_assoc number]

/-- After an unreadable line, the next one is skipped if it can be read. -/
theorem cutLinesFrom_recovering (number : Nat) (start : Location)
    (lines : List (Option (List Char))) :
    cutLinesFrom source number ⟨.recovering, start⟩ lines =
      cutLinesFrom source (number + LexError.unreadableLine.alsoLost lines) ⟨.fresh, start⟩
        (lines.drop (LexError.unreadableLine.alsoLost lines)) := by
  cases lines with
  | nil => rfl
  | cons line lines =>
      cases line with
      | none => rfl
      | some line => rfl

/-- The lines around an error, at every place among the lines of a source. -/
theorem cutLinesFrom_recovers {number : Nat} {state : LexState}
    {lines : List (Option (List Char))} {before : List LexItem} {e : Located LexError}
    {after : List LexItem}
    (h : cutLinesFrom source number state lines = before ++ .error e :: after) :
    ∃ read following, Recovers source number state lines before e after read following := by
  induction lines generalizing number state before with
  | nil =>
      rw [cutLinesFrom] at h
      split at h
      next hcomment =>
        cases before with
        | nil =>
            cases h
            exact ⟨[], [], rfl, rfl, by rw [cutLinesFrom, if_pos hcomment]; rfl, rfl⟩
        | cons item before => exact absurd (List.cons.inj h).2.symm (by simp)
      next => exact absurd h.symm (by simp)
  | cons line lines ih =>
      cases line with
      | none =>
          cases before with
          | nil =>
              cases h
              exact ⟨[none], lines, rfl, rfl, rfl, cutLinesFrom_recovering _ _ _⟩
          | cons item before =>
              obtain ⟨rfl, hrest⟩ := List.cons.inj h
              obtain ⟨read, following, hlater⟩ := ih hrest
              have hline : ∀ rest, cutLinesFrom source number state (none :: rest) =
                  [.error ⟨.unreadableLine, state.start⟩] ++
                    cutLinesFrom source (number + 1) ⟨.recovering, state.start⟩ rest :=
                fun _ => rfl
              exact ⟨none :: read, following, hlater.cons hline⟩
      | some line =>
          have hends : EndsAt source ⟨number, 1⟩ line (enterLine source number state line) :=
            enterLine_endsAt number state line
          have hline : ∀ rest, cutLinesFrom source number state (some line :: rest) =
              (enterLine source number state line).1 ++
                cutLinesFrom source (number + 1) (enterLine source number state line).2 rest :=
            fun _ => rfl
          rw [hline] at h
          -- The error is one of a later line, or it is one of this line.
          have hlater : ∀ later, before = (enterLine source number state line).1 ++ later →
              cutLinesFrom source (number + 1) (enterLine source number state line).2 lines =
                later ++ .error e :: after →
              ∃ read following, Recovers source number state (some line :: lines) before e after
                read following := by
            intro later hbefore hrest
            obtain ⟨read, following, hrecovers⟩ := ih hrest
            exact ⟨some line :: read, following, hbefore ▸ hrecovers.cons hline⟩
          obtain ⟨later, hbefore, hrest⟩ | ⟨own, hitems, hrest⟩ := List.append_eq_append_iff.mp h
          · exact hlater later hbefore hrest
          · cases own with
            | nil => exact hlater [] (by simpa using hitems.symm) hrest.symm
            | cons item own =>
                obtain ⟨rfl, hafter⟩ := List.cons.inj hrest
                obtain ⟨rfl, hstate, hread, hcomment, hplace⟩ := hends before e own hitems
                have hlost : e.value.alsoLost lines = 0 := by
                  unfold LexError.alsoLost
                  split
                  next hcause => exact absurd hcause hread
                  next => rfl
                refine ⟨[some line], lines, rfl, ?_, ?_, ?_⟩
                · unfold Located.OccursAfter
                  split
                  next hcause => exact absurd hcause hread
                  next hcause => exact absurd hcause hcomment
                  next => exact ⟨[], line, rfl, hplace⟩
                · rw [hline, hitems, hstate]
                  exact List.append_nil _
                · rw [hafter, hlost, hstate]
                  rfl

end Lines

namespace Reading

/-- Every error of a source is the last item of the lines up to and with its own, and what comes
after it is what the lines that follow give when they are entered afresh; only after an unreadable
line is the next one lost as well if it can be read. -/
theorem recovers_from_errors (name : String) (bytes : ByteArray) {before : List LexItem}
    {e : Located LexError} {after : List LexItem}
    (h : (ofBytes name bytes).items = before ++ .error e :: after) :
    ∃ read following, Recovers (ofBytes name bytes).source 1
      ⟨.fresh, (ofBytes name bytes).start⟩ (ofBytes name bytes).lines before e after
        read following :=
  cutLinesFrom_recovers h

/-- A sign that means nothing, and a word on the next line. -/
def signReading : Reading := ofBytes "<input>" "a @ b
c".toUTF8

theorem sign_recovers : ∃ before e after, signReading.items = before ++ .error e :: after ∧
    ∃ read following, Recovers signReading.source 1 ⟨.fresh, signReading.start⟩ signReading.lines
      before e after read following := by
  have hany : (signReading.items.any fun item => !item.toBool) = true := by decide +kernel
  obtain ⟨item, hmem, herror⟩ := List.any_eq_true.mp hany
  obtain ⟨before, after, hitems⟩ := List.append_of_mem hmem
  cases item with
  | ok token => cases herror
  | error e => exact ⟨before, e, after, hitems, recovers_from_errors _ _ hitems⟩

/-- No error of a source costs more than its own line. -/
def ErrorsCostOneLine (reading : Reading) : Prop :=
  ∀ before e after, reading.items = before ++ .error e :: after →
    ∃ read following, reading.lines = read ++ following ∧
      e.OccursAfter reading.source 1 read following ∧
      cutLinesFrom reading.source 1 ⟨.fresh, reading.start⟩ read = before ++ [.error e] ∧
      after = cutLinesFrom reading.source (1 + read.length) ⟨.fresh, e.location⟩ following

/-- An unreadable line, and a word on the next one. -/
def unreadableReading : Reading := ofBytes "<input>" ⟨#[0xff, 10, 97]⟩

/-- The word after an unreadable line is lost. -/
theorem unreadable_costs_next_line : ¬unreadableReading.ErrorsCostOneLine := by
  intro h
  have hlines : unreadableReading.lines = [none, some ['a', '\n']] := by decide +kernel
  have hitems : unreadableReading.items =
      [.error ⟨.unreadableLine, unreadableReading.start⟩] := by
    rw [items, hlines]
    rfl
  obtain ⟨read, following, hsplit, hlast, -, hnext⟩ := h [] _ [] hitems
  have hread : read.getLast? = some none := hlast
  rw [hlines] at hsplit
  match read, hsplit, hread with
  | [none], hsplit, _ =>
      obtain rfl : following = [some ['a', '\n']] := (List.cons.inj hsplit).2.symm
      have hword : (cutLinesFrom unreadableReading.source 2 ⟨.fresh, unreadableReading.start⟩
          [some ['a', '\n']]).length = 1 := by
        decide +kernel
      have hnone := congrArg List.length hnext
      exact absurd (hnone.trans hword) (by decide)
  | [none, some line], _, hread => cases hread

end Reading

end AccumulatorC
