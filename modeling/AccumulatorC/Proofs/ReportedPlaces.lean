import AccumulatorC.Proofs.Lowering.Spans
import AccumulatorC.Proofs.Program.Compiling
import AccumulatorC.Proofs.Program.Parser.Spans
import AccumulatorC.Proofs.Program.Parser.Warnings
import AccumulatorC.Proofs.Token.Origins
import AccumulatorC.Proofs.TokenCoverage

/-!
# Places in reports

A warning, and an error in a program that has tokens, is reported at a token or at an expression, from
the start of its first token to the end of its last one: a warning at the expression whose value is
converted, an error in the form of a program at the token or the expression that it is about, and an
error in lowering at the place that was visited last. When both tokens stand in one source, the
reported place is the text between them in this source. When a file is included in the middle of an
expression they need not, and then the place has its start in one source and its end in another.
-/

namespace AccumulatorC

/-! ## Text between tokens -/

/-- A location is the place of a part of a source, and this part begins with one token and ends with
another one, or with the same. -/
structure Location.Encloses (l : Location) (reading : Reading)
    (before body after : List (Located Char)) (first last : Token) : Prop where
  characters : reading.characters = (before ++ body ++ after).map some
  source : l.source = reading.source
  nonempty : l.start < l.stop
  bounds : l.Bounds body
  textIn : l.textIn (before ++ body ++ after) = textOf body
  begins : ∃ spelling, first.Spelling spelling ∧ spelling <+: textOf body
  ends : ∃ spelling, last.Spelling spelling ∧ spelling <:+ textOf body

/-- Tokens that cover characters have between them what goes from the first to the last one. -/
theorem Covers.exists_between {chars : List (Located Char)} {front later : List (Located Token)}
    {first last : Located Token} (h : Covers chars (front ++ first :: later))
    (hlast : last ∈ first :: later) :
    ∃ before body after, chars = before ++ body ++ after ∧
      (Location.span first.location last.location).Bounds body ∧
      (∃ spelling, first.value.Spelling spelling ∧ spelling <+: textOf body) ∧
      ∃ spelling, last.value.Spelling spelling ∧ spelling <:+ textOf body := by
  obtain ⟨before, lexeme, rest, rfl, hplaced, hrest⟩ := h.exists_from
  obtain ⟨start, stop, hstart, hstop, hlocation⟩ := hplaced.location
  cases hlast with
  | head =>
      refine ⟨before, lexeme, rest, rfl, ⟨start, stop, hstart, hstop, ?_⟩,
        ⟨_, hplaced.spelling, List.prefix_rfl⟩, ⟨_, hplaced.spelling, List.suffix_rfl⟩⟩
      rw [hlocation]
      rfl
  | tail _ hmem =>
      obtain ⟨gap, lexeme', after, rfl, hplaced'⟩ := hrest.exists_placed hmem
      obtain ⟨start', stop', hstart', hstop', hlocation'⟩ := hplaced'.location
      refine ⟨before, lexeme ++ gap ++ lexeme', after, by simp, ⟨start, stop', ?_, ?_, ?_⟩,
        ⟨_, hplaced.spelling, ?_⟩, ⟨_, hplaced'.spelling, ?_⟩⟩
      · rw [List.append_assoc, List.head?_append, hstart, Option.some_or]
      · rw [List.getLast?_append, hstop', Option.some_or]
      · rw [hlocation, hlocation']
        rfl
      · rw [List.append_assoc, textOf_append]
        exact List.prefix_append _ _
      · rw [textOf_append]
        exact List.suffix_append _ _

/-- The place from one token of a source to a later one encloses the text in between. -/
theorem Reading.encloses {name : String} {bytes : ByteArray} {front later : List (Located Token)}
    {first last : Located Token}
    (h : (ofBytes name bytes).tokens = .ok (front ++ first :: later))
    (hlast : last ∈ first :: later) :
    ∃ before body after, (Location.span first.location last.location).Encloses (ofBytes name bytes)
      before body after first.value last.value := by
  obtain ⟨chars, hchars, hcovers⟩ :=
    cutLinesFrom_covers (fun _ => isLine_of_mem) (items_of_tokens h)
  have hcells : ∀ c ∈ chars, ∃ q, c.location = .cell (ofBytes name bytes).source q := by
    intro c hmem
    have hmem : some c ∈ (ofBytes name bytes).characters := by
      rw [characters, hchars]
      exact List.mem_map_of_mem hmem
    obtain ⟨q, hq, -⟩ := cell_of_mem_charactersFrom hmem
    exact ⟨q, hq⟩
  have hcell : ∀ c ∈ chars, c.InCell := by
    intro c hmem
    obtain ⟨q, hq⟩ := hcells c hmem
    rw [Located.InCell, hq]
    rfl
  have hord := pairwise_of_charactersFrom hchars
  obtain ⟨before, body, after, rfl, hbounds, hbegins, hends⟩ := Covers.exists_between hcovers hlast
  have hsource : (Location.span first.location last.location).source =
      (ofBytes name bytes).source := by
    obtain ⟨start, stop, hstart, -, hlocation⟩ := hbounds
    obtain ⟨q, hq⟩ := hcells start (by simp [List.mem_of_mem_head? hstart])
    rw [hlocation, Location.span, hq]
    rfl
  exact ⟨before, body, after, hchars, hsource, (hbounds.divides hord hcell).1, hbounds,
    hbounds.textIn_eq hord hcell, hbegins, hends⟩

/-! ## Text between tokens of an input -/

/-- A location encloses text of one source of an input, from one token to another one. -/
def Input.Encloses (tree : FileTree) (input : Input) (owner : Option Place) (l : Location)
    (first last : Token) : Prop :=
  ∃ reading before body after, input.Reads tree owner reading ∧
    l.Encloses reading before body after first last

/-- The place from one token of a source of an input to a later one encloses the text in between. -/
theorem Input.Reads.encloses {tree : FileTree} {input : Input} {owner : Option Place}
    {reading : Reading} (h : input.Reads tree owner reading) {front later : List (Located Token)}
    {first last : Located Token} (htokens : reading.tokens = .ok (front ++ first :: later))
    (hlast : last ∈ first :: later) :
    input.Encloses tree owner (.span first.location last.location) first.value last.value := by
  obtain ⟨name, bytes, rfl⟩ := h.exists_bytes
  obtain ⟨before, body, after, hencloses⟩ := Reading.encloses htokens hlast
  exact ⟨_, before, body, after, h, hencloses⟩

/-- What follows an element in a list follows it in any list that the first one is a part of. -/
theorem exists_split_of_sublist {α : Type} {front later list : List α} {first : α}
    (h : (front ++ first :: later).Sublist list) :
    ∃ front' later', list = front' ++ first :: later' ∧ later ⊆ later' := by
  obtain ⟨earlier, rest, rfl, -, hrest⟩ := List.append_sublist_iff.mp h
  obtain ⟨middle, later', rfl, hfirst, hlater⟩ := List.cons_sublist_iff.mp hrest
  obtain ⟨before, after, rfl⟩ := List.append_of_mem hfirst
  refine ⟨earlier ++ before, after ++ later', by simp, fun other hmem => ?_⟩
  exact List.mem_append_right _ (hlater.subset hmem)

/-- The place between two tokens of one source encloses text of it, whatever stands between them
among the tokens of the input. -/
theorem Input.Sources.encloses {tree : FileTree} {input : Input} {front later : List SourcedToken}
    {first last : SourcedToken} (h : input.Sources tree (front ++ first :: later))
    (hlast : last ∈ first :: later) (howner : first.owner = last.owner) :
    input.Encloses tree first.owner (.span first.token.location last.token.location)
      first.token.value last.token.value := by
  obtain ⟨reading, own, hreads, htokens, hsublist⟩ := h first (by simp)
  rw [tokensOf_append, tokensOf_cons] at hsublist
  obtain ⟨front', later', rfl, hlater⟩ := exists_split_of_sublist hsublist
  have hmem : last.token ∈ first.token :: later' := by
    cases hlast with
    | head => exact List.mem_cons_self
    | tail _ hmem =>
        apply List.mem_cons_of_mem _ (hlater _)
        rw [howner]
        exact token_mem_tokensOf hmem
  exact hreads.encloses htokens hmem

/-! ## Reports -/

/-- A text is reported at a location with a warning or with an error. -/
inductive Reported : Except (Stop Diagnostics) Compiled → Located String → Prop
  | warning {compiled : Compiled} {warning : Located Conversion}
      (hmem : warning ∈ compiled.warnings) :
      Reported (.ok compiled) (warning.rendered Conversion.message)
  | error {diagnostics : Diagnostics} {entry : Located String}
      (hmem : entry ∈ diagnostics.entries) : Reported (.error (.diagnosis diagnostics)) entry

/-- What is reported of sources is reported of their tokens. -/
theorem reported_of_sources {options : Options} {obstacle : Option Breakdown}
    {tokens : Except (List (Located LexError)) (List (Located Token))} {report : Located String}
    (h : Reported (compileSources options obstacle tokens) report) :
    Reported (compileTokens options tokens) report := by
  generalize hresult : compileSources options obstacle tokens = result at h
  cases h with
  | warning hmem => exact compileTokens_of_sources hresult ▸ .warning hmem
  | error hmem => exact compileTokens_of_diagnosis hresult ▸ .error hmem

theorem Stop.exists_of_diagnostics {ε : Type} {message : ε → String} {stop : Stop (Located ε)}
    {diagnostics : Diagnostics} (h : stop.diagnostics message = .diagnosis diagnostics) :
    ∃ entry, stop = .diagnosis entry ∧ diagnostics = .errors [entry.rendered message] := by
  cases stop with
  | diagnosis entry =>
      cases h
      exact ⟨entry, rfl, rfl⟩
  | breakdown cause => cases h

/-- A location goes from the first to the last of tokens of an input that are of a kind, and if both
stand in one source, it encloses the text between them there. -/
inductive Input.Connects (tree : FileTree) (input : Input) (list : List SourcedToken)
    (kind : List Token → Prop) (l : Location) : Prop
  | intro {front part later : List SourcedToken} {first last : SourcedToken}
      (hlist : list = front ++ part ++ later)
      (hkind : kind (part.map (·.token.value))) (hfirst : part.head? = some first)
      (hlast : part.getLast? = some last)
      (hlocation : l = .span first.token.location last.token.location)
      (hencloses : first.owner = last.owner →
        input.Encloses tree first.owner l first.token.value last.token.value)

section Connects

variable {tree : FileTree} {input : Input} {list : List SourcedToken} {kind : List Token → Prop}
  {l : Location}

theorem Input.Connects.mono {other : List Token → Prop} (h : input.Connects tree list kind l)
    (himp : ∀ part, kind part → other part) : input.Connects tree list other l := by
  obtain ⟨hlist, hkind, hfirst, hlast, hlocation, hencloses⟩ := h
  exact .intro hlist (himp _ hkind) hfirst hlast hlocation hencloses

theorem Input.Sources.connects (h : input.Sources tree list)
    (hspans : l.SpansOf kind (list.map (·.token))) : input.Connects tree list kind l := by
  generalize htokens : list.map (·.token) = tokens at hspans
  obtain ⟨hkind, hfirst, hlast⟩ := hspans
  obtain ⟨_, later, rfl, hboth, rfl⟩ := List.map_eq_append_iff.mp htokens
  obtain ⟨front, part, rfl, rfl, rfl⟩ := List.map_eq_append_iff.mp hboth
  rw [List.head?_map, Option.map_eq_some_iff] at hfirst
  rw [List.getLast?_map, Option.map_eq_some_iff] at hlast
  obtain ⟨first, hfirst, rfl⟩ := hfirst
  obtain ⟨last, hlast, rfl⟩ := hlast
  rw [List.map_map] at hkind
  refine .intro rfl hkind hfirst hlast rfl fun howner => ?_
  obtain ⟨rest, rfl⟩ := List.head?_eq_some_iff.mp hfirst
  rw [List.append_assoc] at h
  exact h.encloses (List.mem_append_left later (List.mem_of_getLast? hlast)) howner

end Connects

/-- What a report is about. A warning is about an expression of the program and stands at its place,
an error in the tokens goes from the first to the last of those it is about, and lowering stops at a
place of the program. -/
inductive Input.Explains (tree : FileTree) (input : Input) (list : List SourcedToken) :
    Located String → Prop
  | warning {parsed : Parsed} {found : Located Conversion} {e : Expr}
      (hparsed : Program.ofTokens (list.map (·.token)) = .ok parsed)
      (hnode : e ∈ parsed.program.nodes) (hlocation : found.location = e.location)
      (hconverts : parsed.program.Converts e found.value)
      (hconnects : input.Connects tree list IsTerm found.location) :
      Explains tree input list (found.rendered Conversion.message)
  | reading {entry : Located ParseError}
      (hread : Program.ofTokens (list.map (·.token)) = .error (.diagnosis entry))
      (hconnects : input.Connects tree list entry.value.IsAbout entry.location) :
      Explains tree input list (entry.rendered ParseError.message)
  | lowering {parsed : Parsed} {entry : Located LowerError}
      (hparsed : Program.ofTokens (list.map (·.token)) = .ok parsed)
      (hlines : parsed.program.lines = .error (.diagnosis entry))
      (hplace : parsed.program.HasPlace entry.location)
      (hconnects : input.Connects tree list IsConstruct entry.location) :
      Explains tree input list (entry.rendered LowerError.message)

theorem Input.Explains.connects {tree : FileTree} {input : Input} {list : List SourcedToken}
    {report : Located String} (h : input.Explains tree list report) :
    input.Connects tree list IsConstruct report.location := by
  cases h with
  | warning _ _ _ _ hconnects => exact hconnects.mono fun _ => .inr
  | reading _ hconnects => exact hconnects.mono fun _ => ParseError.IsAbout.isConstruct
  | lowering _ _ _ hconnects => exact hconnects

/-- What a compilation reports of the tokens of an input is about them or about the program that they
are read as. -/
theorem Input.Sources.explains {tree : FileTree} {input : Input} {list : List SourcedToken}
    (hsources : input.Sources tree list) (hne : list.map (·.token) ≠ []) {options : Options}
    {report : Located String}
    (h : Reported (compileTokens options (.ok (list.map (·.token)))) report) :
    input.Explains tree list report := by
  obtain ⟨herrors, hparses⟩ := Program.ofTokens_spans hne
  generalize hresult : compileTokens options (.ok (list.map (·.token))) = result at h
  cases h with
  | @warning compiled warning hmem =>
      obtain ⟨parsed, hparsed, hwarnings⟩ := compileTokens_warnings hresult
      rw [hwarnings] at hmem
      obtain ⟨e, hnode, hlocation, hconverts⟩ :=
        Program.exists_converts ((Program.ofTokens_conversions hparsed _).mp hmem)
      exact .warning hparsed hnode hlocation hconverts
        (hsources.connects ((hparses parsed hparsed).1 _ hmem))
  | error hmem =>
      obtain ⟨stop, hparsed, hstop⟩ | ⟨parsed, stop, hparsed, hlines, hstop⟩ :=
        compileTokens_eq_error hresult
      · obtain ⟨entry, rfl, rfl⟩ := Stop.exists_of_diagnostics hstop.symm
        obtain rfl := List.mem_singleton.mp hmem
        exact .reading hparsed (hsources.connects (herrors entry hparsed))
      · obtain ⟨entry, rfl, rfl⟩ := Stop.exists_of_diagnostics hstop.symm
        obtain rfl := List.mem_singleton.mp hmem
        have hspans : entry.location.Spans (list.map (·.token)) :=
          Program.lines_location (hparses parsed hparsed).2 hlines
        exact .lowering hparsed hlines (Program.lines_location parsed.program.items_lie hlines)
          (hsources.connects hspans)

/-- Every report on an input with tokens goes from the first to the last of the tokens of a construct,
and encloses the text between them if both stand in one source; and this construct is what the report
is about. Every single token encloses text, and all tokens stand in one source if the input has no
directives. -/
theorem Input.reported_connects (tree : FileTree) (options : Options) (input : Input)
    {tokens : List (Located Token)} (htokens : input.tokens tree = .ok tokens) (hne : tokens ≠ []) :
    ∃ list, list.map (·.token) = tokens ∧ input.Sources tree list ∧
      (∀ source ∈ list, input.Encloses tree source.owner source.token.location source.token.value
        source.token.value) ∧
      (input.IsPlain tree → ∃ owner, ∀ source ∈ list, source.owner = owner) ∧
      ∀ report, Reported (input.compile tree options) report →
        input.Connects tree list IsConstruct report.location ∧ input.Explains tree list report := by
  obtain ⟨list, rfl, hsources, howner⟩ := Input.exists_sources htokens hne
  refine ⟨list, rfl, hsources, ?_, howner, ?_⟩
  · intro source hmem
    obtain ⟨front, later, rfl⟩ := List.append_of_mem hmem
    exact hsources.encloses List.mem_cons_self rfl
  · intro report hreported
    rw [Input.compile_eq, htokens] at hreported
    have hexplains := hsources.explains hne (reported_of_sources hreported)
    exact ⟨hexplains.connects, hexplains⟩

theorem Input.exists_reported (tree : FileTree) (options : Options) (input : Input)
    (start stop : Position)
    (htokens : (input.tokens tree).toOption.any (!·.isEmpty) = true)
    (hcompile : (input.compile tree options).toOption.any
      (·.warnings.any fun warning =>
        decide (warning.location.start = start ∧ warning.location.stop = stop)) = true) :
    ∃ tokens report, input.tokens tree = .ok tokens ∧ tokens ≠ [] ∧
      Reported (input.compile tree options) report ∧ report.location.start = start ∧
      report.location.stop = stop := by
  obtain ⟨tokens, htokens, hne⟩ := exists_eq_ok_of_any htokens
  obtain ⟨compiled, hcompiled, hany⟩ := exists_eq_ok_of_any hcompile
  obtain ⟨warning, hmem, hplace⟩ := List.any_eq_true.mp hany
  refine ⟨tokens, warning.rendered Conversion.message, htokens, ?_, ?_, of_decide_eq_true hplace⟩
  · rintro rfl
    cases hne
  · rw [hcompiled]
    exact .warning hmem

/-- A sum with a file in the middle, which begins and ends in the file that is compiled. -/
def enclosingTree : FileTree := ⟨[], [],
  [(["main.c"], "char main() \x7b return 1 +\n#include \"two.h\"\n+ 300; \x7d".toUTF8),
    (["two.h"], "2".toUTF8)]⟩

theorem enclosing_reported_connects : ∃ tokens list report,
    (Input.file ⟨"main.c"⟩).tokens enclosingTree = .ok tokens ∧ tokens ≠ [] ∧
      list.map (·.token) = tokens ∧
      Reported ((Input.file ⟨"main.c"⟩).compile enclosingTree .default) report ∧
      report.location.start = ⟨1, 22⟩ ∧ report.location.stop = ⟨3, 6⟩ ∧
      (Input.file ⟨"main.c"⟩).Connects enclosingTree list IsConstruct report.location ∧
      (Input.file ⟨"main.c"⟩).Explains enclosingTree list report := by
  obtain ⟨tokens, report, htokens, hne, hreported, hstart, hstop⟩ :=
    Input.exists_reported enclosingTree .default (.file ⟨"main.c"⟩) ⟨1, 22⟩ ⟨3, 6⟩
      (by decide +kernel) (by decide +kernel)
  obtain ⟨list, hlist, -, -, -, hconnects⟩ :=
    Input.reported_connects enclosingTree .default (.file ⟨"main.c"⟩) htokens hne
  exact ⟨tokens, list, report, htokens, hne, hlist, hreported, hstart, hstop,
    hconnects report hreported⟩

/-- A sum that ends in a file of its own. -/
def splicedTree : FileTree := ⟨[], [],
  [(["main.c"], "char main() \x7b return 1 +\n#include \"b.h\"\n; \x7d\n".toUTF8),
    (["b.h"], "300".toUTF8)]⟩

/-- Its place starts in one file and stops in the other one, in front of where it starts. -/
theorem spliced_reported_reversed : ∃ tokens report,
    (Input.file ⟨"main.c"⟩).tokens splicedTree = .ok tokens ∧ tokens ≠ [] ∧
      Reported ((Input.file ⟨"main.c"⟩).compile splicedTree .default) report ∧
      report.location.start = ⟨1, 22⟩ ∧ report.location.stop = ⟨1, 4⟩ ∧
      ¬report.location.start < report.location.stop := by
  obtain ⟨tokens, report, htokens, hne, hreported, hstart, hstop⟩ :=
    Input.exists_reported splicedTree .default (.file ⟨"main.c"⟩) ⟨1, 22⟩ ⟨1, 4⟩
      (by decide +kernel) (by decide +kernel)
  refine ⟨tokens, report, htokens, hne, hreported, hstart, hstop, ?_⟩
  rw [hstart, hstop]
  decide

end AccumulatorC
