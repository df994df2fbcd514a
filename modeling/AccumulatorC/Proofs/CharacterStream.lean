import Mathlib.Data.List.Induction
import AccumulatorC.Proofs.Breakdown
import AccumulatorC.Proofs.Text.LineEnds

/-!
# The characters of a source

The characters of a source are those of its lines, one line after the other, with a newline behind
each of them. A line that is not the text of any characters leaves a single gap and still has its
number. Positions grow all the way, so no two characters share one. All this is so as long as 32 bits
hold the numbers of the lines and of their columns, and reading breaks down where they do not.
-/

namespace AccumulatorC

/-! ## Columns -/

/-- The width of characters on a line: a tab goes on to the next multiple of four, and every other
character takes one column. -/
def widthOf (chars : List Char) : Nat :=
  chars.foldl (fun width c => if c = '\t' then width + (4 - width % 4) else width + 1) 0

theorem widthOf_concat (chars : List Char) (c : Char) :
    widthOf (chars ++ [c]) =
      if c = '\t' then widthOf chars + (4 - widthOf chars % 4) else widthOf chars + 1 :=
  List.foldl_append

theorem afterAll_concat (p : Position) (chars : List Char) (c : Char) :
    p.afterAll (chars ++ [c]) = (p.afterAll chars).after c :=
  List.foldl_append

/-- Behind characters that start a line is the column after their width. -/
theorem afterAll_eq_widthOf (number : Nat) (chars : List Char) :
    Position.afterAll ⟨number, 1⟩ chars = ⟨number, 1 + widthOf chars⟩ := by
  induction chars using List.reverseRecOn with
  | nil => rfl
  | append_singleton chars c ih =>
      rw [afterAll_concat, ih, widthOf_concat, Position.after]
      split
      next =>
        simp only [Position.tab, Position.tabWidth, Position.mk.injEq, true_and]
        omega
      next => rfl

/-- A character takes four columns at most. -/
theorem widthOf_le (chars : List Char) : widthOf chars ≤ 4 * chars.length := by
  induction chars using List.reverseRecOn with
  | nil => exact Nat.le_refl _
  | append_singleton chars c ih =>
      rw [widthOf_concat, List.length_append, List.length_singleton]
      split <;> omega

/-- A character of a line stands behind those before it. -/
theorem location_of_locate {source : Source} {p : Position} {text : List Char}
    {before after : List (Located Char)} {c : Located Char}
    (h : locate source p text = before ++ c :: after) :
    c.location = .cell source (p.afterAll (textOf before)) := by
  have htext : textOf (locate source p text) = textOf before ++ c.value :: textOf after := by
    rw [h, textOf_append]
    rfl
  rw [textOf_locate] at htext
  rw [htext, locate_append] at h
  obtain ⟨-, hrest⟩ := List.append_inj h (by simp)
  rw [← (List.cons.inj hrest).1]

/-! ## Lines -/

theorem cutLines_line {line : List UInt8} (h : 10 ∉ line) (rest : List UInt8) :
    cutLines [] (line ++ 10 :: rest) = closeLine line.reverse :: cutLines [] rest := by
  rw [cutLines_append h, List.append_nil, cutLines, if_pos rfl]

/-- A source is joined from its lines and from no others. -/
theorem joins_iff {bytes : List UInt8} {lines : List (List UInt8)} :
    Joins bytes lines ↔ lines = cutLines [] bytes := by
  refine ⟨fun h => ?_, fun h => h ▸ cutLines_joins List.not_mem_nil⟩
  induction h with
  | nil => rfl
  | last hline hne => rw [cutLines_of_not_mem hline, List.reverse_nil, List.nil_append, if_neg hne]
  | @newline line rest lines hline hreturn _ ih =>
      have hclose : closeLine line.reverse = line := by
        rcases List.eq_nil_or_concat line with rfl | ⟨front, last, rfl⟩
        · rfl
        · rw [List.concat_eq_append, List.reverse_append, List.reverse_singleton,
            List.singleton_append, closeLine_of_ne]
          · simp
          · simpa using hreturn
      rw [cutLines_line hline, hclose, ih]
  | @returned line rest lines hline _ ih =>
      have hcut : 10 ∉ line ++ [13] := by simpa using hline
      have hclose : closeLine (line ++ [13]).reverse = line := by
        rw [List.reverse_append, List.reverse_singleton, List.singleton_append, closeLine,
          List.reverse_reverse]
      rw [List.append_cons, cutLines_line hcut, hclose, ih]

/-- Every line takes a byte of the source at least. -/
theorem Joins.lines_length_le {bytes : List UInt8} {lines : List (List UInt8)}
    (h : Joins bytes lines) : lines.length ≤ bytes.length := by
  induction h with
  | nil => exact Nat.le_refl _
  | last _ hne => exact List.length_pos_iff.mpr hne
  | newline _ _ _ ih | returned _ _ ih =>
      simp only [List.length_append, List.length_cons]
      omega

theorem Joins.line_length_le {bytes : List UInt8} {lines : List (List UInt8)}
    (h : Joins bytes lines) : ∀ line ∈ lines, line.length ≤ bytes.length := by
  induction h with
  | nil => nofun
  | last => exact List.forall_mem_singleton.mpr (Nat.le_refl _)
  | newline _ _ _ ih | returned _ _ ih =>
      refine List.forall_mem_cons.mpr ⟨?_, fun line hmem => ?_⟩
      · rw [List.length_append]
        exact Nat.le_add_right _ _
      · have hle := ih line hmem
        simp only [List.length_append, List.length_cons]
        omega

/-- Every character takes a byte at least. -/
theorem length_le_encode (text : List Char) : text.length ≤ (encode text).length := by
  induction text with
  | nil => exact Nat.le_refl _
  | cons c rest ih =>
      have hc : 0 < (String.utf8EncodeChar c).length :=
        List.length_pos_iff.mpr String.utf8EncodeChar_ne_nil
      rw [encode_cons, List.length_append, List.length_cons]
      omega

/-- 32 bits hold the numbers of lines and those of their columns, with the newline behind each one. -/
structure Numbered (lines : List (List UInt8)) : Prop where
  count : lines.length < counterLimit
  widths : ∀ text, encode text ∈ lines → widthOf text + 2 < counterLimit

/-- The lines of a source below a gigabyte are not too long. -/
theorem Joins.numbered {bytes : List UInt8} {lines : List (List UInt8)} (h : Joins bytes lines)
    (hsize : 4 * bytes.length + 2 < counterLimit) : Numbered lines where
  count := by
    have hlines := h.lines_length_le
    omega
  widths text hmem := by
    have hline := h.line_length_le _ hmem
    have hbytes := length_le_encode text
    have hwidth := widthOf_le text
    omega

/-! ## Places -/

/-- Locations that compare as equal begin at one place. -/
theorem Location.start_eq_of_beq {l m : Location} (h : l == m) : l.start = m.start := by
  have hparts : (l.source.name == m.source.name && l.start == m.start && l.stop == m.stop) = true := h
  simp only [Bool.and_eq_true, beq_iff_eq] at hparts
  exact hparts.1.2

theorem Location.beq_self (l : Location) : l == l := by
  have hparts : (l.source.name == l.source.name && l.start == l.start && l.stop == l.stop) = true := by
    simp
  exact hparts

/-! ## What lines give -/

/-- What a line of bytes gives: a gap if no characters have these bytes, and otherwise the characters
that have them and a newline, each in the column behind the width of those before it. -/
inductive LineGives (source : Source) (number : Nat) :
    List UInt8 → List (Option (Located Char)) → Prop
  | unreadable {line : List UInt8} (h : ∀ text, line ≠ encode text) :
      LineGives source number line [none]
  | readable {text : List Char} {chars : List (Located Char)} (htext : textOf chars = text ++ ['\n'])
      (hplaces : ∀ before c after, chars = before ++ c :: after →
        c.location = .cell source ⟨number, 1 + widthOf (textOf before)⟩) :
      LineGives source number (encode text) (chars.map some)

/-- What lines of bytes give one after the other, counted from the number of the first one. -/
inductive LinesGive (source : Source) :
    Nat → List (List UInt8) → List (Option (Located Char)) → Prop
  | nil {number : Nat} : LinesGive source number [] []
  | cons {number : Nat} {line : List UInt8} {lines : List (List UInt8)}
      {own later : List (Option (Located Char))} (hline : LineGives source number line own)
      (hlines : LinesGive source (number + 1) lines later) :
      LinesGive source number (line :: lines) (own ++ later)

/-! ## Numbers that have room -/

theorem one_lt_counterLimit : 1 < counterLimit := by decide

theorem Position.checked_of_lt {p : Position} (hline : p.line < counterLimit)
    (hcolumn : p.column < counterLimit) : p.checked = .ok p := if_pos ⟨hline, hcolumn⟩

theorem Position.checked_of_le {p : Position} (h : counterLimit ≤ p.column) :
    p.checked = .error .farPosition := if_neg fun hfits => Nat.not_lt_of_le h hfits.2

theorem Position.checked_eq_error {p : Position} {cause : Breakdown} (h : p.checked = .error cause) :
    cause = .farPosition := by
  rw [checked] at h
  split at h <;> cases h
  rfl

/-- Columns grow behind the characters of a line. -/
theorem Position.column_le_afterAll (p : Position) (chars : List Char) :
    p.column ≤ (p.afterAll chars).column := by
  induction chars generalizing p with
  | nil => exact Nat.le_refl _
  | cons c rest ih =>
      have hnext : p.column ≤ (p.after c).column := column_le_of_le (le_after c) (after_line c)
      exact Nat.le_trans hnext (ih (p.after c))

namespace Reading

/-- A line that can be decoded gives its characters, and any other one an error. -/
theorem linesGive_charactersFrom (source : Source) (number : Nat) (lines : List (List UInt8)) :
    LinesGive source number lines
      (charactersFrom source number
        ((lines.map decodeLine).map (·.map fun text => text.toList ++ ['\n']))) := by
  induction lines generalizing number with
  | nil => exact .nil
  | cons line lines ih =>
      rw [List.map_cons, List.map_cons]
      cases hdecode : decodeLine line with
      | none =>
          suffices hgap : LineGives source number line [none] from .cons hgap (ih _)
          refine .unreadable fun text htext => ?_
          have hread : decodeLine line = some (String.ofList text) :=
            decodeLine_eq_some.mpr (by rw [String.toList_ofList, htext])
          rw [hdecode] at hread
          cases hread
      | some text =>
          rw [decodeLine_eq_some.mp hdecode]
          refine .cons (.readable (textOf_locate _) fun before c after h => ?_) (ih _)
          rw [location_of_locate h, afterAll_eq_widthOf]

/-- The characters of a line are read while there is room for the position behind them. -/
theorem locateChecked_eq (source : Source) {p : Position} (hline : p.line < counterLimit)
    (hcolumn : p.column < counterLimit) (chars : List Char) :
    locateChecked source p chars =
      if (p.afterAll chars).column < counterLimit then .ok (locate source p chars)
      else .error .farPosition := by
  induction chars generalizing p with
  | nil => exact (if_pos hcolumn).symm
  | cons c rest ih =>
      have hall : p.afterAll (c :: rest) = (p.after c).afterAll rest := rfl
      have hlater : (p.after c).line < counterLimit := by rwa [Position.after_line]
      rw [locateChecked, locate, hall]
      by_cases hnext : (p.after c).column < counterLimit
      · have hbefore : p.advance.column ≤ (p.after c).column :=
          Position.column_le_of_le (Position.advance_le_after c) (Position.after_line c)
        have hstop : p.advance.column < counterLimit := Nat.lt_of_le_of_lt hbefore hnext
        have hadvance : p.advance.checked = .ok p.advance := Position.checked_of_lt hline hstop
        rw [Position.checked_of_lt hlater hnext, hadvance, ok_bind, ok_bind, ih hlater hnext]
        split <;> rfl
      · have hfar := Nat.le_trans (Nat.le_of_not_lt hnext) ((p.after c).column_le_afterAll rest)
        rw [Position.checked_of_le (Nat.le_of_not_lt hnext), if_neg (Nat.not_lt_of_le hfar)]
        rfl

section Stream

variable {source : Source} {before : Nat} {lines : List (Option (List Char))}

/-- The number and the first column of a line have room that is not the last one. -/
theorem checked_start (h : before + (lines.length + 1) < counterLimit) :
    (Position.mk (before % counterLimit + 1) 1).checked = .ok ⟨before + 1, 1⟩ := by
  rw [Nat.mod_eq_of_lt (by omega)]
  exact Position.checked_of_lt (by dsimp only; omega) one_lt_counterLimit

/-- Lines are read in which all columns have room. -/
theorem streamFrom_eq_ok (hcount : before + lines.length < counterLimit)
    (hwidths : ∀ line, some line ∈ lines → 1 + widthOf line < counterLimit) :
    streamFrom source before lines = .ok (charactersFrom source (before + 1) lines) := by
  induction lines generalizing before with
  | nil => rfl
  | cons line lines ih =>
      rw [List.length_cons] at hcount
      have hrest : streamFrom source (before + 1) lines = _ := ih (by omega) fun line hmem =>
        hwidths line (List.mem_cons_of_mem _ hmem)
      cases line with
      | none =>
          rw [streamFrom, hrest]
          rfl
      | some line =>
          have hown := hwidths line List.mem_cons_self
          rw [streamFrom, checked_start hcount, ok_bind, hrest,
            locateChecked_eq source (by dsimp only; omega) one_lt_counterLimit,
            afterAll_eq_widthOf, if_pos hown]
          rfl

/-- Reading breaks down in the first line without room for a column. -/
theorem streamFrom_eq_error (hcount : before + lines.length < counterLimit)
    (hwide : ∃ line, some line ∈ lines ∧ counterLimit ≤ 1 + widthOf line) :
    streamFrom source before lines = .error .farPosition := by
  induction lines generalizing before with
  | nil =>
      obtain ⟨line, hmem, -⟩ := hwide
      cases hmem
  | cons line lines ih =>
      rw [List.length_cons] at hcount
      obtain ⟨wide, hmem, hwidth⟩ := hwide
      have hrest : some wide ∈ lines → streamFrom source (before + 1) lines = .error .farPosition :=
        fun hmem => ih (by omega) ⟨wide, hmem, hwidth⟩
      cases line with
      | none =>
          rw [streamFrom, hrest (List.mem_of_ne_of_mem (Option.some_ne_none wide) hmem)]
          rfl
      | some line =>
          rw [streamFrom, checked_start hcount, ok_bind,
            locateChecked_eq source (by dsimp only; omega) one_lt_counterLimit,
            afterAll_eq_widthOf]
          split
          next hfits =>
            have hne : some wide ≠ some line := fun heq =>
              Nat.not_lt_of_le (Option.some.inj heq ▸ hwidth) hfits
            rw [hrest (List.mem_of_ne_of_mem hne hmem)]
            rfl
          next => rfl

/-- Nothing else breaks down when a source is read. -/
theorem locateChecked_eq_error {p : Position} {chars : List Char} {cause : Breakdown}
    (h : locateChecked source p chars = .error cause) : cause = .farPosition := by
  induction chars generalizing p with
  | nil => cases h
  | cons c rest ih =>
      rw [locateChecked, bind_eq_error] at h
      rcases h with hnext | ⟨next, -, h⟩
      · exact Position.checked_eq_error hnext
      rcases bind_eq_error.mp h with hstop | ⟨stop, -, h⟩
      · exact Position.checked_eq_error hstop
      rcases bind_eq_error.mp h with hrest | ⟨rest, -, h⟩
      · exact ih hrest
      · cases h

theorem streamFrom_eq_farPosition {cause : Breakdown}
    (h : streamFrom source before lines = .error cause) : cause = .farPosition := by
  induction lines generalizing before with
  | nil => cases h
  | cons line lines ih =>
      cases line with
      | none =>
          rcases bind_eq_error.mp h with hrest | ⟨rest, -, h⟩
          · exact ih hrest
          · cases h
      | some line =>
          rcases bind_eq_error.mp h with hstart | ⟨start, -, h⟩
          · exact Position.checked_eq_error hstart
          rcases bind_eq_error.mp h with hown | ⟨own, -, h⟩
          · exact locateChecked_eq_error hown
          rcases bind_eq_error.mp h with hrest | ⟨rest, -, h⟩
          · exact ih hrest
          · cases h

end Stream

/-- The lines of a source as they are read. -/
theorem lines_ofBytes (name : String) (bytes : ByteArray) :
    (ofBytes name bytes).lines = ((cutLines [] bytes.data.toList).map decodeLine).map
      (·.map fun text => text.toList ++ ['\n']) := rfl

theorem mem_lines_ofBytes {name : String} {bytes : ByteArray} {line : List Char} :
    some line ∈ (ofBytes name bytes).lines ↔
      ∃ text, encode text ∈ cutLines [] bytes.data.toList ∧ line = text ++ ['\n'] := by
  simp only [lines_ofBytes, List.map_map, List.mem_map, Function.comp_apply, Option.map_eq_some_iff]
  constructor
  · rintro ⟨own, hmem, text, htext, rfl⟩
    exact ⟨text.toList, decodeLine_eq_some.mp htext ▸ hmem, rfl⟩
  · rintro ⟨text, hmem, rfl⟩
    exact ⟨_, hmem, String.ofList text, decodeLine_eq_some.mpr (by rw [String.toList_ofList]),
      by rw [String.toList_ofList]⟩

theorem widthOf_newline (text : List Char) : 1 + widthOf (text ++ ['\n']) = widthOf text + 2 := by
  rw [widthOf_concat, if_neg (by decide)]
  omega

variable {name : String} {bytes : ByteArray}

/-- What is read of a source whose numbers have room. -/
theorem stream_of_numbered (h : Numbered (cutLines [] bytes.data.toList)) :
    (ofBytes name bytes).stream = .ok (ofBytes name bytes).characters := by
  refine streamFrom_eq_ok ?_ fun line hmem => ?_
  · rw [lines_ofBytes, List.length_map, List.length_map, Nat.zero_add]
    exact h.count
  · obtain ⟨text, htext, rfl⟩ := mem_lines_ofBytes.mp hmem
    rw [widthOf_newline]
    exact h.widths text htext

theorem stream_of_wide {text : List Char}
    (hcount : (cutLines [] bytes.data.toList).length < counterLimit)
    (htext : encode text ∈ cutLines [] bytes.data.toList)
    (hwide : counterLimit ≤ widthOf text + 2) :
    (ofBytes name bytes).stream = .error .farPosition := by
  refine streamFrom_eq_error ?_ ⟨_, mem_lines_ofBytes.mpr ⟨text, htext, rfl⟩, ?_⟩
  · rw [lines_ofBytes, List.length_map, List.length_map, Nat.zero_add]
    exact hcount
  · rwa [widthOf_newline]

/-- A source below a gigabyte is read to its end. -/
theorem stream_of_size (h : 4 * bytes.size + 2 < counterLimit) :
    (ofBytes name bytes).stream = .ok (ofBytes name bytes).characters := by
  have hsize : bytes.data.toList.length = bytes.size := Array.length_toList
  exact stream_of_numbered ((joins_iff.mpr rfl : Joins bytes.data.toList _).numbered (hsize ▸ h))

/-- Characters come in the order of their positions, and each one has a location of its own. -/
def Orders (characters : List (Option (Located Char))) : Prop :=
  ∀ (i j : Nat) (c d : Located Char), characters[i]? = some (some c) →
    characters[j]? = some (some d) →
      (c.location.start < d.location.start ↔ i < j) ∧ (c.location == d.location ↔ i = j)

theorem start_lt_of_lt {reading : Reading} {i j : Nat} {c d : Located Char}
    (hc : reading.characters[i]? = some (some c)) (hd : reading.characters[j]? = some (some d))
    (h : i < j) : c.location.start < d.location.start := by
  obtain ⟨hi, hci⟩ := List.getElem?_eq_some_iff.mp hc
  obtain ⟨hj, hdj⟩ := List.getElem?_eq_some_iff.mp hd
  have hprecedes := List.pairwise_iff_getElem.mp
    (charactersFrom_pairwise reading.source 1 reading.lines) i j hi hj h c hci d hdj
  obtain ⟨q, hq, -⟩ := cell_of_mem_charactersFrom (List.mem_of_getElem? hc)
  rw [Located.Precedes, hq] at hprecedes
  rw [hq]
  exact Position.lt_of_lt_of_le Position.lt_advance hprecedes

theorem orders (reading : Reading) : Orders reading.characters := by
  intro i j c d hc hd
  rcases Nat.lt_trichotomy i j with h | rfl | h
  · have hlt := start_lt_of_lt hc hd h
    refine ⟨iff_of_true hlt h, iff_of_false (fun hsame => ?_) (Nat.ne_of_lt h)⟩
    exact Position.lt_irrefl (Location.start_eq_of_beq hsame ▸ hlt)
  · obtain rfl := Option.some.inj (Option.some.inj (hc.symm.trans hd))
    exact ⟨iff_of_false Position.lt_irrefl (Nat.lt_irrefl i), iff_of_true (Location.beq_self _) rfl⟩
  · have hlt := start_lt_of_lt hd hc h
    refine ⟨iff_of_false (fun hback => ?_) (Nat.lt_asymm h),
      iff_of_false (fun hsame => ?_) (Nat.ne_of_gt h)⟩
    · exact Position.lt_irrefl (Position.lt_of_lt_of_le hlt (Position.le_of_lt hback))
    · exact Position.lt_irrefl (Location.start_eq_of_beq hsame ▸ hlt)

/-- What is read of a source is what its lines give, one line after the other, in the order of their
positions, if 32 bits hold the numbers of lines and columns, as they do for every source below a
gigabyte. Where they hold those of the lines but not those of the columns, reading breaks down. -/
theorem stream_by_lines (name : String) (bytes : ByteArray) :
    ∃ lines : List (List UInt8), (∀ others, Joins bytes.data.toList others ↔ others = lines) ∧
      (4 * bytes.size + 2 < counterLimit → Numbered lines) ∧
      (Numbered lines → ∃ characters, (ofBytes name bytes).stream = .ok characters ∧
        LinesGive (ofBytes name bytes).source 1 lines characters ∧ Orders characters) ∧
      (lines.length < counterLimit → ¬ Numbered lines →
        (ofBytes name bytes).stream = .error .farPosition) := by
  have hgive : LinesGive (ofBytes name bytes).source 1 (cutLines [] bytes.data.toList)
      (ofBytes name bytes).characters := linesGive_charactersFrom _ _ _
  have hjoins : Joins bytes.data.toList (cutLines [] bytes.data.toList) := joins_iff.mpr rfl
  have hlength : bytes.data.toList.length = bytes.size := Array.length_toList
  refine ⟨_, fun _ => joins_iff, fun hsize => hjoins.numbered (hlength ▸ hsize),
    fun hnumbered => ⟨_, stream_of_numbered hnumbered, hgive, orders _⟩, fun hcount hwide => ?_⟩
  have hfound : ∃ text, encode text ∈ cutLines [] bytes.data.toList ∧
      counterLimit ≤ widthOf text + 2 := by
    by_contra hnone
    refine hwide ⟨hcount, fun text hmem => ?_⟩
    exact Nat.lt_of_not_le fun hle => hnone ⟨text, hmem, hle⟩
  obtain ⟨text, htext, hle⟩ := hfound
  exact stream_of_wide hcount htext hle

example : ((ofBytes "<input>" ⟨#[9, 97, 13, 10, 255, 10, 10, 98]⟩).stream.toOption.map fun characters =>
      characters.map (·.map fun c => (c.value, c.location.start))) =
    some [some ('\t', ⟨1, 1⟩), some ('a', ⟨1, 5⟩), some ('\n', ⟨1, 6⟩), none, some ('\n', ⟨3, 1⟩),
      some ('b', ⟨4, 1⟩), some ('\n', ⟨4, 2⟩)] := by decide +kernel

/-! ### Tabs up to the last column -/

theorem widthOf_tabs (count : Nat) : widthOf (List.replicate count '\t') = 4 * count := by
  induction count with
  | zero => rfl
  | succ count ih =>
      rw [List.replicate_succ', widthOf_concat, if_pos rfl, ih]
      omega

theorem encode_tabs (count : Nat) :
    encode (List.replicate count '\t') = List.replicate count 9 := by
  induction count with
  | zero => rfl
  | succ count ih =>
      rw [List.replicate_succ, encode_cons, ih, List.replicate_succ]
      rfl

/-- A line of tabs is read while there is room for the column behind it. -/
theorem stream_tabs (name : String) {count : Nat} (h : counterLimit ≤ 4 * count + 2) :
    (ofBytes name ⟨(List.replicate count 9).toArray⟩).stream = .error .farPosition := by
  have hlines : cutLines [] (List.replicate count (9 : UInt8)) = [List.replicate count 9] := by
    rw [cutLines_of_not_mem (by simp), if_neg]
    · simp
    · have hlimit : 2 < counterLimit := by decide
      simp only [List.reverse_nil, List.nil_append, List.replicate_eq_nil_iff]
      omega
  refine @stream_of_wide name _ (List.replicate count '\t') ?_ ?_ ?_
  · rw [hlines]
    exact one_lt_counterLimit
  · rw [hlines, encode_tabs]
    exact List.mem_cons_self
  · rwa [widthOf_tabs]

/-- The column behind the last one of so many tabs has no room. -/
theorem tabs_break_down :
    (ofBytes "<input>" ⟨(List.replicate 1073741824 9).toArray⟩).stream = .error .farPosition :=
  stream_tabs "<input>" (by decide)

end Reading

end AccumulatorC
