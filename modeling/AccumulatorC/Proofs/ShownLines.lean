import AccumulatorC.Proofs.Text.Positions

/-!
# The lines that are shown

A diagnostic shows the line that a character stands in by the number of that line. Numbers count all
lines of a source, but only those that can be read are kept, so each unreadable line before a
character moves what is shown for it one readable line further on.
-/

namespace AccumulatorC

/-! ## Characters and their lines -/

/-- What a line gives: its characters and a newline, or a single gap when it cannot be read. -/
def lineItems : Option String → List (Option Char)
  | none => [none]
  | some text => (text.toList ++ ['\n']).map some

/-- A character stands in a line of a source: the source gives what the lines before this one give,
then the characters of this line, among them the one in question, and then what the lines after it
give. -/
def Located.StandsIn (c : Located Char) (reading : Reading) (before : List (Option String))
    (text : String) (after : List (Option String)) : Prop :=
  ∃ front chars back, reading.characters = front ++ chars.map some ++ back ∧
    front.map (·.map Located.value) = before.flatMap lineItems ∧
    textOf chars = text.toList ++ ['\n'] ∧
    back.map (·.map Located.value) = after.flatMap lineItems ∧ c ∈ chars

/-- The text that is shown for the line that a location starts on. -/
def Location.shownLine (l : Location) : String := l.source.line l.start.line

namespace Reading

variable {source : Source} {number : Nat}

theorem charactersFrom_append (first second : List (Option (List Char))) :
    charactersFrom source number (first ++ second) =
      charactersFrom source number first ++
        charactersFrom source (number + first.length) second := by
  induction first generalizing number with
  | nil => rfl
  | cons line rest ih =>
      have hnumber : number + 1 + rest.length = number + (line :: rest).length := by
        rw [List.length_cons]
        omega
      cases line with
      | none => rw [List.cons_append, charactersFrom, ih, charactersFrom, hnumber]; rfl
      | some own =>
          rw [List.cons_append, charactersFrom, ih, charactersFrom, hnumber, List.append_assoc]

/-- The characters of the lines that a reading is made of. -/
def textCharacters (lines : List (Option String)) : List (Option (List Char)) :=
  lines.map (·.map fun text => text.toList ++ ['\n'])

/-- The characters of a source are those of its lines, whatever their places. -/
theorem values_charactersFrom (lines : List (Option String)) :
    (charactersFrom source number (textCharacters lines)).map (·.map Located.value) =
      lines.flatMap lineItems := by
  induction lines generalizing number with
  | nil => rfl
  | cons line rest ih =>
      rw [List.flatMap_cons, ← @ih (number + 1)]
      cases line with
      | none => rfl
      | some text =>
          have hown : ∀ chars : List (Located Char),
              (chars.map some).map (·.map Located.value) = (textOf chars).map some := by
            intro chars
            rw [textOf, List.map_map, List.map_map]
            rfl
          have hline := hown (locate source ⟨number, 1⟩ (text.toList ++ ['\n']))
          rw [textOf_locate] at hline
          rw [lineItems, ← hline, ← List.map_append]
          rfl

/-- A character belongs to one of the lines. -/
theorem exists_line_of_mem {lines : List (Option String)} {c : Located Char}
    (h : some c ∈ charactersFrom source number (textCharacters lines)) :
    ∃ before text after, lines = before ++ some text :: after ∧
      c ∈ locate source ⟨number + before.length, 1⟩ (text.toList ++ ['\n']) := by
  induction lines generalizing number with
  | nil => cases h
  | cons line rest ih =>
      have hlater : some c ∈ charactersFrom source (number + 1) (textCharacters rest) →
          ∃ before text after, line :: rest = before ++ some text :: after ∧
            c ∈ locate source ⟨number + before.length, 1⟩ (text.toList ++ ['\n']) := by
        intro hmem
        obtain ⟨before, text, after, rfl, hc⟩ := ih hmem
        refine ⟨line :: before, text, after, rfl, ?_⟩
        rwa [List.length_cons, Nat.add_comm before.length, ← Nat.add_assoc]
      cases line with
      | none =>
          rcases List.mem_cons.mp h with h | h
          · cases h
          · exact hlater h
      | some text =>
          rcases List.mem_append.mp h with h | h
          · obtain ⟨own, hmem, hown⟩ := List.mem_map.mp h
            exact ⟨[], text, rest, rfl, Option.some.inj hown ▸ hmem⟩
          · exact hlater h

/-- Every character of a source stands in a line of its own number. -/
theorem exists_standsIn {name : String} {lines : List (Option String)} {c : Located Char}
    (h : some c ∈ (ofLines name lines).characters) :
    ∃ before text after, lines = before ++ some text :: after ∧
      c.StandsIn (ofLines name lines) before text after ∧
      c.location.source = (ofLines name lines).source ∧
      c.location.start.line = before.length + 1 := by
  obtain ⟨before, text, after, hlines, hc⟩ := exists_line_of_mem h
  obtain ⟨q, hcell, -, hline⟩ := cell_of_mem_locate hc
  have hwhole : (ofLines name lines).lines =
      textCharacters before ++ textCharacters (some text :: after) := by
    rw [ofLines, hlines]
    exact List.map_append
  have hsplit : (ofLines name lines).characters =
      charactersFrom (ofLines name lines).source 1 (textCharacters before) ++
        (locate (ofLines name lines).source ⟨1 + before.length, 1⟩ (text.toList ++ ['\n'])).map some ++
        charactersFrom (ofLines name lines).source (1 + before.length + 1) (textCharacters after) := by
    have hlength : (textCharacters before).length = before.length := List.length_map _
    rw [characters, hwhole, charactersFrom_append, hlength, List.append_assoc]
    rfl
  refine ⟨before, text, after, hlines, ⟨_, _, _, hsplit, values_charactersFrom before,
    textOf_locate _, values_charactersFrom after, hc⟩, ?_, ?_⟩
  · rw [hcell]
    rfl
  · rw [hcell]
    exact hline.trans (Nat.add_comm _ _)

end Reading

/-! ## What is kept of a source -/

/-- The lines that can be read. -/
def readableLines (lines : List (Option String)) : List String := lines.filterMap id

/-- Of the first lines, those that can be read are kept. -/
theorem readableLines_length (lines : List (Option String)) :
    (readableLines lines).length + lines.count none = lines.length := by
  induction lines with
  | nil => rfl
  | cons line rest ih =>
      cases line with
      | none =>
          rw [List.count_cons_self, List.length_cons, ← ih]
          rfl
      | some text =>
          rw [List.count_cons_of_ne (Option.some_ne_none text), List.length_cons, ← ih]
          exact Nat.succ_add _ _

/-- The entry with the number of a line is as many readable lines further on as there are unreadable
ones before it. -/
theorem readableLines_getElem? (before after : List (Option String)) :
    (readableLines (before ++ after))[before.length]? =
      (readableLines after)[before.count none]? := by
  have hlength := readableLines_length before
  rw [readableLines, List.filterMap_append, List.getElem?_append_right]
  · congr 1
    rw [readableLines] at hlength
    omega
  · rw [readableLines] at hlength
    omega

namespace Reading

/-- For every character of a source, what is shown is the text of the line that it stands in if all
lines before can be read. Otherwise it is the readable line as many readable lines further on as
there are unreadable ones before, or nothing when there are not so many. -/
theorem shown_lines (name : String) (bytes : ByteArray) {c : Located Char}
    (h : some c ∈ (ofBytes name bytes).characters) :
    ∃ before text after, readLines bytes = before ++ some text :: after ∧
      c.StandsIn (ofBytes name bytes) before text after ∧
      c.location.shownLine =
        ((text :: readableLines after)[before.count none]?).getD "" ∧
      (none ∉ before → c.location.shownLine = text) := by
  obtain ⟨before, text, after, hlines, hstands, hsource, hline⟩ := exists_standsIn h
  have hshown : c.location.shownLine =
      ((text :: readableLines after)[before.count none]?).getD "" :=
    calc
      c.location.shownLine
        = ((readableLines (readLines bytes))[before.length]?).getD "" := by
          rw [Location.shownLine, hsource, hline]
          rfl
      _ = ((readableLines (some text :: after))[before.count none]?).getD "" := by
          rw [hlines, readableLines_getElem?]
  refine ⟨before, text, after, hlines, hstands, hshown, fun hnone => ?_⟩
  rw [hshown, List.count_eq_zero.mpr hnone]
  rfl

/-- An unreadable line among others. -/
def gappedBytes : ByteArray := ⟨#[97, 10, 0xff, 10, 98, 10, 99]⟩

theorem gappedBytes_shown_lines : ∃ c : Located Char,
    some c ∈ (ofBytes "<input>" gappedBytes).characters ∧ c.location.start = ⟨3, 1⟩ ∧
    ∃ before text after, readLines gappedBytes = before ++ some text :: after ∧
      c.StandsIn (ofBytes "<input>" gappedBytes) before text after ∧
      c.location.shownLine =
        ((text :: readableLines after)[before.count none]?).getD "" ∧
      (none ∉ before → c.location.shownLine = text) := by
  have hlines : readLines gappedBytes = [some "a", none, some "b", some "c"] := by decide +kernel
  have hmem : some ⟨'b', .cell ⟨"<input>", ["a", "b", "c"]⟩ ⟨3, 1⟩⟩ ∈
      (ofBytes "<input>" gappedBytes).characters := by
    rw [ofBytes, hlines]
    exact List.mem_of_getElem? (i := 3) rfl
  exact ⟨_, hmem, rfl, shown_lines _ _ hmem⟩

/-- For every character of a source, the text of the line that it stands in is shown. -/
def ShowsOwnLines (reading : Reading) : Prop :=
  ∀ (c : Located Char) before text after, c.StandsIn reading before text after →
    c.location.shownLine = text

/-- Nothing is shown for the last line when the one before it cannot be read. -/
theorem unreadable_hides_next_line : ¬(ofBytes "<input>" ⟨#[0xff, 10, 97]⟩).ShowsOwnLines := by
  have hlines : readLines ⟨#[0xff, 10, 97]⟩ = [none, some "a"] := by decide +kernel
  rw [ofBytes, hlines]
  intro h
  have hstands : (⟨'a', .cell ⟨"<input>", ["a"]⟩ ⟨2, 1⟩⟩ : Located Char).StandsIn
      (ofLines "<input>" [none, some "a"]) [none] "a" [] :=
    ⟨[none], [⟨'a', .cell ⟨"<input>", ["a"]⟩ ⟨2, 1⟩⟩, ⟨'\n', .cell ⟨"<input>", ["a"]⟩ ⟨2, 2⟩⟩], [],
      rfl, rfl, rfl, rfl, List.mem_cons_self⟩
  exact absurd (h _ _ _ _ hstands) (by decide)

end Reading

end AccumulatorC
