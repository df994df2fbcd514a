import AccumulatorC.Diagnostic
import AccumulatorC.Proofs.Machine.LabelTexts
import AccumulatorC.Proofs.ShownLines
import AccumulatorC.Proofs.TokenCoverage

/-!
# Excerpts

An excerpt has the lines from the start of a location to its end, behind their numbers, and a row of
marks below them. The numbers fill a margin that is as wide as the last of them, and the marks stand
behind a margin of the same width, so on a line without tabs the characters that a location holds are
exactly those with a mark below. This needs the line to be the one that is kept under its number, and
the marks to have room.
-/

namespace AccumulatorC

/-! ## Locations of a source -/

namespace Reading

/-- The locations of a source: its start, the places of its characters, and the spans from one of its
locations to another one, in whichever order the two stand. -/
inductive Locates (reading : Reading) : Location → Prop
  | start : Locates reading reading.start
  | character {c : Located Char} (h : some c ∈ reading.characters) : Locates reading c.location
  | span {first last : Location} (hfirst : Locates reading first) (hlast : Locates reading last) :
      Locates reading (.span first last)

/-- A position of a source: the first one, or that of a character. -/
def HasPosition (reading : Reading) (p : Position) : Prop :=
  p = .first ∨ ∃ c, some c ∈ reading.characters ∧ c.location = .cell reading.source p

/-- A location goes from one position to behind another one. -/
theorem Locates.exists_positions {reading : Reading} {l : Location} (h : reading.Locates l) :
    ∃ p q, l = ⟨reading.source, p, q.advance⟩ ∧ reading.HasPosition p ∧ reading.HasPosition q := by
  induction h with
  | start => exact ⟨.first, .first, rfl, .inl rfl, .inl rfl⟩
  | @character c hmem =>
      obtain ⟨q, hcell, -⟩ := cell_of_mem_charactersFrom hmem
      exact ⟨q, q, hcell, .inr ⟨c, hmem, hcell⟩, .inr ⟨c, hmem, hcell⟩⟩
  | span _ _ ihfirst ihlast =>
      obtain ⟨p, _, rfl, hp, -⟩ := ihfirst
      obtain ⟨_, q, rfl, -, hq⟩ := ihlast
      exact ⟨p, q, rfl, hp, hq⟩

/-- Without tabs every character takes one column. -/
theorem mem_locate_iff {source : Source} {p : Position} {chars : List Char} {c : Located Char}
    (htab : '\t' ∉ chars) : c ∈ locate source p chars ↔
      ∃ i, chars[i]? = some c.value ∧ c.location = .cell source ⟨p.line, p.column + i⟩ := by
  induction chars generalizing p with
  | nil => simp [locate]
  | cons first rest ih =>
      obtain ⟨hfirst, hrest⟩ := not_or.mp (List.mem_cons.not.mp htab)
      have hafter : p.after first = p.advance := if_neg (Ne.symm hfirst)
      rw [locate, List.mem_cons, hafter, ih hrest]
      constructor
      · rintro (rfl | ⟨i, hi, hcell⟩)
        · exact ⟨0, rfl, rfl⟩
        · refine ⟨i + 1, hi, hcell.trans ?_⟩
          rw [Position.advance_line, Position.advance, Nat.add_right_comm, Nat.add_assoc]
      · rintro ⟨i, hi, hcell⟩
        cases i with
        | zero =>
            obtain ⟨value, location⟩ := c
            obtain rfl := Option.some.inj hi
            exact .inl (congrArg _ hcell)
        | succ i =>
            refine .inr ⟨i, hi, hcell.trans ?_⟩
            rw [Position.advance_line, Position.advance, Nat.add_right_comm, Nat.add_assoc]

section Line

variable {name : String} {lines before after : List (Option String)} {text : String}
  (hlines : lines = before ++ some text :: after)
include hlines

/-- The characters with the number of a line are those of the line. -/
theorem mem_characters_iff {c : Located Char} :
    (some c ∈ (ofLines name lines).characters ∧ c.location.start.line = before.length + 1) ↔
      c ∈ locate (ofLines name lines).source ⟨before.length + 1, 1⟩ (text.toList ++ ['\n']) := by
  constructor
  · rintro ⟨hmem, hline⟩
    obtain ⟨before', text', after', hlines', hc⟩ := exists_line_of_mem hmem
    obtain ⟨q, hcell, -, hq⟩ := cell_of_mem_locate hc
    -- Both lines have the same number, so the list is cut at the same place.
    have hlength : before'.length = before.length := by
      rw [hcell] at hline
      have hsame : 1 + before'.length = before.length + 1 := hq.symm.trans hline
      omega
    obtain ⟨rfl, hrest⟩ := List.append_inj (hlines'.symm.trans hlines) hlength
    obtain ⟨htext, -⟩ := List.cons.inj hrest
    obtain rfl := Option.some.inj htext
    rwa [Nat.add_comm 1] at hc
  · intro hc
    obtain ⟨q, hcell, -, hq⟩ := cell_of_mem_locate hc
    refine ⟨?_, by rw [hcell]; exact hq⟩
    have hwhole : (ofLines name lines).characters =
        charactersFrom (ofLines name lines).source 1
          (textCharacters before ++ textCharacters (some text :: after)) := by
      rw [characters, ofLines, hlines]
      exact congrArg _ List.map_append
    have hnumber : 1 + (textCharacters before).length = before.length + 1 := by
      rw [textCharacters, List.length_map, Nat.add_comm]
    rw [hwhole, charactersFrom_append, hnumber]
    exact List.mem_append_right _ (List.mem_append_left _ (List.mem_map_of_mem hc))

/-- The characters of a line without tabs stand in its columns one after the other. -/
theorem mem_characters_iff_column (htab : '\t' ∉ text.toList) {c : Located Char} :
    (some c ∈ (ofLines name lines).characters ∧ c.location.start.line = before.length + 1) ↔
      ∃ i, (text.toList ++ ['\n'])[i]? = some c.value ∧
        c.location = .cell (ofLines name lines).source ⟨before.length + 1, i + 1⟩ := by
  have htab' : '\t' ∉ text.toList ++ ['\n'] := by simpa using htab
  rw [mem_characters_iff hlines, mem_locate_iff htab']
  simp only [Nat.add_comm 1]

/-- Positions of a source in a line without tabs are in its columns or at its end. -/
theorem HasPosition.column_le {p : Position} (h : (ofLines name lines).HasPosition p)
    (htab : '\t' ∉ text.toList) (hline : p.line = before.length + 1) :
    p.column ≤ text.length + 1 := by
  rcases h with rfl | ⟨c, hmem, hcell⟩
  · exact Nat.le_add_left 1 _
  · have hc : c.location.start.line = before.length + 1 := by rw [hcell]; exact hline
    obtain ⟨i, hi, hcell'⟩ := (mem_characters_iff_column hlines htab).mp ⟨hmem, hc⟩
    have hlt := (List.getElem?_eq_some_iff.mp hi).1
    have hcolumn : p.column = i + 1 :=
      congrArg (·.start.column) (hcell.symm.trans hcell')
    rw [List.length_append, String.length_toList, List.length_singleton] at hlt
    omega

end Line

/-- Columns and lines of a source are counted from one. -/
theorem HasPosition.column_pos {name : String} {lines : List (Option String)} {p : Position}
    (h : (ofLines name lines).HasPosition p) : 1 ≤ p.column := by
  rcases h with rfl | ⟨c, hmem, hcell⟩
  · exact Nat.le_refl 1
  · obtain ⟨before, text, after, hlines, hc⟩ := exists_line_of_mem hmem
    obtain ⟨q, hq, hle, hline⟩ := cell_of_mem_locate hc
    obtain rfl : p = q := congrArg (·.start) (hcell.symm.trans hq)
    exact Position.column_le_of_le hle hline

end Reading

/-! ## Rows -/

@[simp] theorem length_repeated (count : Nat) (c : Char) : (repeated count c).length = count := by
  rw [repeated, String.length_ofList, List.length_replicate]

@[simp] theorem toList_repeated (count : Nat) (c : Char) :
    (repeated count c).toList = List.replicate count c := String.toList_ofList

theorem length_padLeft {width : Nat} {text : String} (h : text.length ≤ width) :
    (padLeft width text).length = width := by
  rw [padLeft, String.length_append, length_repeated]
  omega

/-- A larger number has no fewer digits. -/
theorem length_toString_le {n m : Nat} (h : n ≤ m) : (toString n).length ≤ (toString m).length := by
  have hlength : ∀ k : Nat, (toString k).length = (Nat.toDigits 10 k).length := fun k => by
    rw [← String.length_toList, ← digits_eq, digits]
  have hpos : 0 < (Nat.toDigits 10 m).length := List.length_pos_iff.mpr Nat.toDigits_ne_nil
  have hm := (Nat.length_toDigits_le_iff (by decide) hpos).mp (Nat.le_refl (Nat.toDigits 10 m).length)
  rw [hlength, hlength, Nat.length_toDigits_le_iff (by decide) hpos]
  exact Nat.lt_of_le_of_lt h hm

namespace Location

variable {l : Location}

theorem mem_lineNumbers {n : Nat} :
    n ∈ l.lineNumbers ↔ l.start.line ≤ n ∧ n ≤ l.stop.line := by
  rw [lineNumbers, List.mem_map]
  constructor
  · rintro ⟨i, hi, rfl⟩
    have hlt := List.mem_range.mp hi
    omega
  · intro h
    exact ⟨n - l.start.line, List.mem_range.mpr (by omega), by omega⟩

theorem lineNumbers_eq_range' :
    l.lineNumbers = List.range' l.start.line (l.stop.line + 1 - l.start.line) := by
  rw [lineNumbers, List.range'_eq_map_range]
  simp only [Nat.add_comm]

/-- What stands in front of a line that is shown. -/
def lineLead (l : Location) (number : Nat) : String := padLeft l.margin (toString number) ++ " | "

/-- What stands in front of the marks. -/
def markLead (l : Location) : String := repeated l.margin ' ' ++ " | "

/-- The marks with the blanks before them. -/
def marks (l : Location) : String :=
  repeated (l.marked.1 - 1) ' ' ++ repeated (l.marked.2 - l.marked.1 + 1) '^'

theorem sourceRow_eq (number : Nat) :
    l.sourceRow number = l.lineLead number ++ l.source.line number := rfl

theorem markRow_eq : l.markRow = l.markLead ++ l.marks := by
  rw [markLead, marks, ← String.append_assoc]
  rfl

/-- All rows begin with parts of one width. -/
theorem length_lineLead {number : Nat} (h : number ≤ l.stop.line) :
    (l.lineLead number).length = l.markLead.length := by
  have hdigits : (toString number).length ≤ l.margin := length_toString_le h
  rw [lineLead, markLead, String.length_append, String.length_append, length_repeated,
    length_padLeft hdigits]

theorem marked_pos (h : 1 ≤ l.start.column) : 1 ≤ l.marked.1 := by
  unfold marked
  dsimp only
  split
  · exact le_min h (Nat.le_max_right _ _)
  · exact h

theorem marked_le : l.marked.1 ≤ l.marked.2 := by
  unfold marked
  dsimp only
  split
  · exact Nat.le_trans (Nat.min_le_left _ _) (Nat.le_max_left _ _)
  · exact Nat.le_refl _

/-- The marks begin not too far to the right, and there are not too many of them. -/
def HasRoom (l : Location) : Prop :=
  l.marked.1 ≤ markLimit + 1 ∧ l.marked.2 < l.marked.1 + markLimit

instance (l : Location) : Decidable l.HasRoom := inferInstanceAs (Decidable (_ ∧ _))

theorem isDrawable_iff (h : 1 ≤ l.start.column) : l.isDrawable = true ↔ l.HasRoom := by
  have hpos := marked_pos h
  have hle := l.marked_le
  unfold isDrawable HasRoom
  dsimp only
  rw [Bool.and_eq_true, decide_eq_true_eq, decide_eq_true_eq]
  omega

/-- On one line the marks go from the first column up to the last but one. -/
theorem marked_of_line (hline : l.stop.line = l.start.line) (hpos : 1 ≤ l.start.column)
    (hlt : l.start.column < l.stop.column) : l.marked = (l.start.column, l.stop.column - 1) := by
  unfold marked
  dsimp only
  rw [if_pos hline, Nat.max_eq_left (by omega), Nat.min_eq_left (by omega),
    Nat.max_eq_right (by omega)]

theorem getElem?_marks (h : 1 ≤ l.marked.1) (i : Nat) : l.marks.toList[i]? = some '^' ↔
    l.marked.1 ≤ i + 1 ∧ i + 1 ≤ l.marked.2 := by
  have hle := l.marked_le
  rw [marks, String.toList_append, toList_repeated, toList_repeated, List.getElem?_append,
    List.length_replicate]
  split
  · rw [List.getElem?_replicate_of_lt (by assumption)]
    simp
    omega
  · rw [List.getElem?_replicate]
    simp
    omega

/-! ## What an excerpt shows -/

/-- The excerpt of a location shows lines of a source. -/
structure Excerpts (l : Location) (lines : List (Option String)) : Prop where
  /-- Nothing is subtracted from less: there is a first marked column, and the last one is not
  before it. -/
  first : 1 ≤ l.marked.1
  ordered : l.marked.1 ≤ l.marked.2
  /-- Between its heading and the marks, the excerpt has the lines from the start to the end, each
  once and in order, behind their numbers; a line is its own when none before it is unreadable. -/
  shown : ∃ rows : List (Nat × String),
    l.excerptRows = [" --> " ++ l.text, repeated l.margin ' ' ++ " |"] ++
      rows.map (fun row => l.lineLead row.1 ++ row.2) ++ [l.markLead ++ l.marks] ∧
    rows.map (·.1) = List.range' l.start.line (l.stop.line + 1 - l.start.line) ∧
    (∀ row ∈ rows, (l.lineLead row.1).length = l.markLead.length) ∧
    ∀ row ∈ rows, ∀ before text after, lines = before ++ some text :: after → none ∉ before →
      row.1 = before.length + 1 → row.2 = text
  caret : '^' ∈ l.marks.toList

/-- The excerpt of a location has one line of a source and marks below it, behind parts of one width:
a character of the line has a mark below exactly if the location holds it, and there are no marks
where there is no character. -/
def Underlines (l : Location) (reading : Reading) (text : String) : Prop :=
  ∃ lead blanks marks : String,
    l.excerptRows = [" --> " ++ l.text, repeated l.margin ' ' ++ " |", lead ++ text,
      blanks ++ marks] ∧
    lead.length = blanks.length ∧ '^' ∉ blanks.toList ∧
    (∀ i, marks.toList[i]? = some '^' ↔ l.start.column ≤ i + 1 ∧ i + 1 < l.stop.column) ∧
    (∀ c : Located Char, some c ∈ reading.characters → c.location.start.line = l.start.line →
      (text.toList ++ ['\n'])[c.location.start.column - 1]? = some c.value ∧
        (marks.toList[c.location.start.column - 1]? = some '^' ↔ l.Holds c)) ∧
    ∀ i, marks.toList[i]? = some '^' → ∃ c : Located Char, some c ∈ reading.characters ∧
      c.location.start.line = l.start.line ∧ c.location.start.column = i + 1 ∧ l.Holds c

end Location

namespace Reading.Locates

variable {name : String} {lines : List (Option String)} {l : Location}
  (h : (ofLines name lines).Locates l)
include h

theorem column_pos : 1 ≤ l.start.column := by
  obtain ⟨p, q, rfl, hp, -⟩ := h.exists_positions
  exact hp.column_pos

/-- The line that is kept under a number is the own one if all lines before it can be read. -/
theorem line_eq {before after : List (Option String)} {text : String}
    (hlines : lines = before ++ some text :: after) (hreadable : none ∉ before) :
    l.source.line (before.length + 1) = text := by
  obtain ⟨p, q, rfl, -, -⟩ := h.exists_positions
  have hkept : (readableLines lines)[before.length]? = some text := by
    rw [hlines, readableLines_getElem?, List.count_eq_zero.mpr hreadable]
    rfl
  show ((readableLines lines)[before.length]?).getD "" = text
  rw [hkept]
  rfl

theorem excerpts : l.Excerpts lines where
  first := Location.marked_pos h.column_pos
  ordered := l.marked_le
  shown := by
    refine ⟨l.lineNumbers.map fun number => (number, l.source.line number), ?_, ?_, ?_, ?_⟩
    · rw [Location.excerptRows, Location.markRow_eq, List.map_map]
      rfl
    · rw [List.map_map, ← Location.lineNumbers_eq_range']
      exact List.map_id _
    · intro row hrow
      obtain ⟨number, hnumber, rfl⟩ := List.mem_map.mp hrow
      exact Location.length_lineLead (Location.mem_lineNumbers.mp hnumber).2
    · intro row hrow before text after hlines hreadable hnumber
      obtain ⟨number, -, rfl⟩ := List.mem_map.mp hrow
      obtain rfl : number = before.length + 1 := hnumber
      exact h.line_eq hlines hreadable
  caret := by
    have hfirst := Location.marked_pos h.column_pos
    have hmark := (Location.getElem?_marks hfirst (l.marked.1 - 1)).mpr
      ⟨by omega, by have := l.marked_le; omega⟩
    exact List.mem_of_getElem? hmark

/-- On a line without tabs the characters of a location are underlined. -/
theorem underlines {before after : List (Option String)} {text : String}
    (hlines : lines = before ++ some text :: after) (hreadable : none ∉ before)
    (htab : '\t' ∉ text.toList) (hstart : l.start.line = before.length + 1)
    (hstop : l.stop.line = before.length + 1) (hlt : l.start.column < l.stop.column) :
    l.Underlines (ofLines name lines) text := by
  have hpos := h.column_pos
  have hmarked := Location.marked_of_line (hstop.trans hstart.symm) hpos hlt
  have hcaret : ∀ i, l.marks.toList[i]? = some '^' ↔
      l.start.column ≤ i + 1 ∧ i + 1 < l.stop.column := by
    intro i
    rw [Location.getElem?_marks (Location.marked_pos hpos), hmarked]
    omega
  -- A character of the line is held if its column is between those of the two ends.
  have hholds : ∀ c : Located Char, c.location.start.line = l.start.line →
      (l.Holds c ↔ l.start.column ≤ c.location.start.column ∧
        c.location.start.column < l.stop.column) := by
    intro c hline
    rw [Location.Holds, Position.le_iff, Position.lt_iff]
    omega
  refine ⟨l.lineLead (before.length + 1), l.markLead, l.marks, ?_,
    Location.length_lineLead (Nat.le_of_eq hstop.symm), ?_, hcaret, ?_, ?_⟩
  · rw [Location.excerptRows, Location.markRow_eq, Location.lineNumbers_eq_range', hstart, hstop,
      Nat.add_sub_cancel_left, List.range'_one, List.map_singleton, Location.sourceRow_eq,
      h.line_eq hlines hreadable]
    rfl
  · rw [Location.markLead, String.toList_append, toList_repeated, List.mem_append]
    rintro (hmem | hmem)
    · exact absurd (List.eq_of_mem_replicate hmem) (by decide)
    · exact absurd hmem (by decide)
  · intro c hmem hline
    obtain ⟨i, hi, hcell⟩ :=
      (mem_characters_iff_column hlines htab).mp ⟨hmem, hline.trans hstart⟩
    have hcolumn : c.location.start.column = i + 1 := by rw [hcell]; rfl
    rw [hcaret, hholds c hline, hcolumn, Nat.add_sub_cancel]
    exact ⟨hi, Iff.rfl⟩
  · intro i hi
    obtain ⟨hleft, hright⟩ := (hcaret i).mp hi
    have hbound : i < (text.toList ++ ['\n']).length := by
      obtain ⟨p, q, rfl, -, hq⟩ := h.exists_positions
      have hcolumn := hq.column_le hlines htab hstop
      have hlast : i + 1 < q.column + 1 := hright
      rw [List.length_append, String.length_toList, List.length_singleton]
      omega
    obtain ⟨hmem, hline⟩ := (mem_characters_iff_column (c := ⟨(text.toList ++ ['\n'])[i],
      .cell (ofLines name lines).source ⟨before.length + 1, i + 1⟩⟩) hlines htab).mpr
        ⟨i, List.getElem?_eq_getElem hbound, rfl⟩
    exact ⟨_, hmem, hline.trans hstart.symm, rfl,
      (hholds _ (hline.trans hstart.symm)).mpr ⟨hleft, hright⟩⟩

end Reading.Locates

/-! ## Diagnostics -/

namespace Diagnostics

variable {diagnostics : Diagnostics}

/-- Every message is shown with the rows of its excerpt. -/
theorem text_of_mem {entry : Located String} (h : entry ∈ diagnostics.entries) :
    ∃ before after : String, diagnostics.text =
      before ++ String.join (entry.location.excerptRows.map (· ++ "\n")) ++ after := by
  obtain ⟨front, back, hentries⟩ := List.append_of_mem h
  have hsome : diagnostics.entries.isEmpty = false := by rw [hentries]; simp
  rw [text, hsome, hentries, List.map_append, List.map_cons, String.join_append, String.join_cons]
  refine ⟨String.join (front.map (entryText diagnostics.kind)) ++
    (diagnostics.kind ++ ": " ++ entry.value ++ "\n"),
    "\n" ++ String.join (back.map (entryText diagnostics.kind)) ++ diagnostics.summary, ?_⟩
  simp only [Bool.false_eq_true, if_false, entryText, Location.excerpt, String.append_assoc]

variable {reading : Reading}

/-- Diagnostics of a source are shown as soon as there is room for all marks. -/
theorem rendered_eq {name : String} {lines : List (Option String)}
    (h : ∀ entry ∈ diagnostics.entries, (Reading.ofLines name lines).Locates entry.location) :
    ((∀ entry ∈ diagnostics.entries, entry.location.HasRoom) →
      diagnostics.rendered = .ok diagnostics.text) ∧
    (¬ (∀ entry ∈ diagnostics.entries, entry.location.HasRoom) →
      diagnostics.rendered = .error .overlongMarks) := by
  have hall : diagnostics.entries.all (·.location.isDrawable) = true ↔
      ∀ entry ∈ diagnostics.entries, entry.location.HasRoom := by
    rw [List.all_eq_true]
    exact forall₂_congr fun entry hmem => Location.isDrawable_iff (h entry hmem).column_pos
  exact ⟨fun hroom => if_pos (hall.mpr hroom), fun hroom => if_neg (mt hall.mp hroom)⟩

end Diagnostics

namespace Reading

/-- Diagnostics at locations of a source are shown as soon as there is room for the marks, and
nothing else keeps them from it. The excerpt of each has the lines from its start to its end and at
least one mark. On one line without tabs the characters of the location, and nothing else, have marks
below them, if no line before it is unreadable. -/
theorem excerpts_underline (name : String) (bytes : ByteArray) {diagnostics : Diagnostics}
    (h : ∀ entry ∈ diagnostics.entries, (ofBytes name bytes).Locates entry.location) :
    ((∀ entry ∈ diagnostics.entries, entry.location.HasRoom) →
      diagnostics.rendered = .ok diagnostics.text) ∧
    (¬ (∀ entry ∈ diagnostics.entries, entry.location.HasRoom) →
      diagnostics.rendered = .error .overlongMarks) ∧
    ∀ entry ∈ diagnostics.entries,
      (∃ before after : String, diagnostics.text =
        before ++ String.join (entry.location.excerptRows.map (· ++ "\n")) ++ after) ∧
      entry.location.Excerpts (readLines bytes) ∧
      ∀ before text after, readLines bytes = before ++ some text :: after → none ∉ before →
        '\t' ∉ text.toList → entry.location.start.line = before.length + 1 →
        entry.location.stop.line = before.length + 1 →
        entry.location.start.column < entry.location.stop.column →
          entry.location.Underlines (ofBytes name bytes) text := by
  obtain ⟨hroom, hnone⟩ := Diagnostics.rendered_eq h
  refine ⟨hroom, hnone, fun entry hmem => ⟨Diagnostics.text_of_mem hmem, (h entry hmem).excerpts, ?_⟩⟩
  intro before text after hlines hreadable htab hstart hstop hlt
  exact (h entry hmem).underlines hlines hreadable htab hstart hstop hlt

/-- Two lines. -/
def spottedBytes : ByteArray := ⟨#[97, 10, 98, 64, 99]⟩

/-- What is kept of them. -/
def spottedSource : Source := ⟨"<input>", ["a", "b@c"]⟩

/-- The end of the second line, and everything from there back to the first one. -/
def spottedDiagnostics : Diagnostics :=
  .errors [⟨"wrong", .span (.cell spottedSource ⟨2, 2⟩) (.cell spottedSource ⟨2, 3⟩)⟩,
    ⟨"reversed", .span (.cell spottedSource ⟨2, 3⟩) (.cell spottedSource ⟨1, 1⟩)⟩]

/-- A location on one line is underlined, and one that ends before it starts has an excerpt, too.
-/
theorem spottedBytes_underlined :
    spottedDiagnostics.rendered = .ok spottedDiagnostics.text ∧
    (∀ entry ∈ spottedDiagnostics.entries, entry.location.Excerpts (readLines spottedBytes)) ∧
    (Location.span (.cell spottedSource ⟨2, 2⟩) (.cell spottedSource ⟨2, 3⟩)).Underlines
      (ofBytes "<input>" spottedBytes) "b@c" := by
  have hlines : readLines spottedBytes = [some "a", some "b@c"] := by decide +kernel
  have hcharacter : ∀ (i : Nat) (c : Char) (p : Position),
      (ofLines "<input>" [some "a", some "b@c"]).characters[i]? =
          some (some ⟨c, .cell spottedSource p⟩) →
        (ofBytes "<input>" spottedBytes).Locates (.cell spottedSource p) := by
    intro i c p hi
    rw [ofBytes, hlines]
    exact .character (List.mem_of_getElem? hi)
  have hfirst := hcharacter 0 'a' ⟨1, 1⟩ rfl
  have hmiddle := hcharacter 3 '@' ⟨2, 2⟩ rfl
  have hlast := hcharacter 4 'c' ⟨2, 3⟩ rfl
  have hlocates : ∀ entry ∈ spottedDiagnostics.entries,
      (ofBytes "<input>" spottedBytes).Locates entry.location := by
    simp only [spottedDiagnostics, Diagnostics.errors, List.forall_mem_cons]
    exact ⟨.span hmiddle hlast, .span hlast hfirst, List.forall_mem_nil _⟩
  obtain ⟨hrendered, -, hentries⟩ := excerpts_underline "<input>" spottedBytes hlocates
  refine ⟨hrendered ?_, fun entry hmem => (hentries entry hmem).2.1,
    (hentries _ List.mem_cons_self).2.2 [some "a"] "b@c" [] hlines (by simp) (by decide) rfl rfl
      (by decide)⟩
  simp only [spottedDiagnostics, Diagnostics.errors, List.forall_mem_cons]
  exact ⟨by decide, by decide, List.forall_mem_nil _⟩

/-- The rows of both excerpts. No line is shown of what ends in a line before its start. -/
example : spottedDiagnostics.text =
    "error: wrong\n --> <input>:[2:2-2:3]\n  |\n2 | b@c\n  |  ^^\n\n" ++
      "error: reversed\n --> <input>:2:3\n  |\n  |   ^\n\nBuild failed with 2 errors\n" := by
  decide +kernel

/-- In a source without tabs every location on one line can be shown, with marks below its own
characters. -/
def UnderlinesAll (name : String) (bytes : ByteArray) : Prop :=
  (∀ text, some text ∈ readLines bytes → '\t' ∉ text.toList) →
    ∀ l before text after, (ofBytes name bytes).Locates l →
      readLines bytes = before ++ some text :: after → l.start.line = before.length + 1 →
      l.stop.line = before.length + 1 → l.start.column < l.stop.column →
        (Diagnostics.errors [⟨"wrong", l⟩]).rendered.isOk = true ∧
          l.Underlines (ofBytes name bytes) text

/-- A character behind 65536 blanks. -/
def indentedText : List Char := List.replicate 65536 ' ' ++ ['x']

theorem eq_of_mem_indentedText {c : Char} (h : c ∈ indentedText) : c = ' ' ∨ c = 'x' :=
  (List.mem_append.mp h).imp List.eq_of_mem_replicate List.mem_singleton.mp

/-- Behind an unreadable line, marks stand below a line that is not the own one; and so far to the
right as behind 65536 blanks, there is no room for them. -/
theorem unreadable_and_indented_not_underlined :
    ¬ UnderlinesAll "<input>" ⟨#[0xff, 10, 97]⟩ ∧
    ¬ UnderlinesAll "<input>" (String.ofList indentedText).toUTF8 := by
  constructor
  · have hlines : readLines ⟨#[0xff, 10, 97]⟩ = [none, some "a"] := by decide +kernel
    intro h
    rw [UnderlinesAll, ofBytes, hlines] at h
    have hmem : some ⟨'a', .cell ⟨"<input>", ["a"]⟩ ⟨2, 1⟩⟩ ∈
        (ofLines "<input>" [none, some "a"]).characters := List.mem_of_getElem? (i := 1) rfl
    obtain ⟨-, lead, blanks, marks, hrows, -⟩ := h (by simp) _ [none] "a" [] (.character hmem)
      rfl rfl rfl (by decide)
    -- The row of the line is empty behind its number.
    have hrow := congrArg (·[2]?) hrows
    have hshown : (Location.cell ⟨"<input>", ["a"]⟩ ⟨2, 1⟩).excerptRows[2]? = some "2 | " := by
      decide +kernel
    have hsame : "2 | " = lead ++ "a" := Option.some.inj (hshown.symm.trans hrow)
    have hblank : "2 | ".toList.getLast? = some ' ' := by decide
    have hown : "a".toList.getLast? = some 'a' := by decide
    rw [hsame, String.toList_append, List.getLast?_append, hown] at hblank
    cases hblank
  · have hlines : readLines (String.ofList indentedText).toUTF8 =
        [some (String.ofList indentedText)] := by
      apply readLines_of_line (List.append_ne_nil_of_right_ne_nil _ (List.cons_ne_nil _ _))
      intro hmem
      rcases eq_of_mem_indentedText hmem with h | h <;> exact absurd h (by decide)
    have htab : '\t' ∉ (String.ofList indentedText).toList := by
      rw [String.toList_ofList]
      intro hmem
      rcases eq_of_mem_indentedText hmem with h | h <;> exact absurd h (by decide)
    intro h
    rw [UnderlinesAll, ofBytes, hlines] at h
    have hx : (indentedText ++ ['\n'])[65536]? = some 'x' := by
      rw [indentedText, List.append_assoc,
        List.getElem?_append_right (Nat.le_of_eq List.length_replicate), List.length_replicate]
      rfl
    obtain ⟨hmem, -⟩ := (@mem_characters_iff_column "<input>" _ [] [] _ rfl htab
      ⟨'x', .cell ⟨"<input>", [String.ofList indentedText]⟩ ⟨1, 65537⟩⟩).mpr
        ⟨65536, by rw [String.toList_ofList]; exact hx, rfl⟩
    obtain ⟨hdrawn, -⟩ := h (by simpa using htab) _ [] _ [] (.character hmem) rfl rfl rfl
      (by decide)
    have hnone : (Location.cell ⟨"<input>", [String.ofList indentedText]⟩
        ⟨1, 65537⟩).isDrawable = false := by decide
    rw [Diagnostics.rendered, Diagnostics.errors, List.all_cons, hnone] at hdrawn
    cases hdrawn

end Reading

end AccumulatorC
