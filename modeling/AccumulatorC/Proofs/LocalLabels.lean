import AccumulatorC.Proofs.Program.Compiling

/-!
# Labels that are referred to

A label with a dot is found among the lines around a place, up to the next label without a dot on
either side. Every such label that an instruction refers to is put there, and none is put twice in a
whole program. Whatever else is referred to is put somewhere, or the source declares it as defined
elsewhere.
-/

namespace AccumulatorC

open Lowering

/-! ## Around a place -/

/-- Whether a line is no label that is written without a dot. -/
def Line.isInside (line : Line) : Bool := line.label?.all (beginsWithDot ·.text)

/-- The lines around a place up to the next label without a dot on both sides. -/
def around (before after : List Line) : List Line :=
  (before.reverse.takeWhile Line.isInside).reverse ++ after.takeWhile Line.isInside

theorem takeWhile_subset_append {α : Type} (p : α → Bool) (list rest : List α) :
    list.takeWhile p ⊆ (list ++ rest).takeWhile p := by
  intro value hmem
  rw [List.takeWhile_append]
  split
  · exact List.mem_append_left _ ((List.takeWhile_sublist p).subset hmem)
  · exact hmem

/-- More lines on both sides leave those around a place there. -/
theorem around_subset (front before after back : List Line) :
    around before after ⊆ around (front ++ before) (after ++ back) := by
  intro line hmem
  rw [around, List.reverse_append]
  rcases List.mem_append.mp hmem with hbefore | hafter
  · refine List.mem_append_left _ (List.mem_reverse.mpr ?_)
    exact takeWhile_subset_append _ _ _ (List.mem_reverse.mp hbefore)
  · exact List.mem_append_right _ (takeWhile_subset_append _ _ _ hafter)

/-- All lines are around a place when none is a label without a dot. -/
theorem around_eq {before after : List Line} (hbefore : ∀ line ∈ before, line.isInside = true)
    (hafter : ∀ line ∈ after, line.isInside = true) : around before after = before ++ after := by
  have hreverse : before.reverse.takeWhile Line.isInside = before.reverse :=
    List.takeWhile_eq_self_iff.mpr fun line hmem => hbefore line (List.mem_reverse.mp hmem)
  rw [around, hreverse, List.reverse_reverse, List.takeWhile_eq_self_iff.mpr hafter]

/-- Every label with a dot that a line of a code refers to is put around the line. -/
def Scoped (code : List Line) : Prop :=
  ∀ before line after, code = before ++ line :: after →
    ∀ l ∈ line.references, l.isDotted = true → .label l ∈ around before after

namespace Scoped

variable {code rest : List Line}

theorem append (h : Scoped code) (h' : Scoped rest) : Scoped (code ++ rest) := by
  intro before line after hparts l hl hdotted
  have hrest : ∀ front, before = code ++ front → rest = front ++ line :: after →
      .label l ∈ around before after := by
    rintro front rfl hrest
    have hmem := around_subset code front after [] (h' front line after hrest l hl hdotted)
    rwa [List.append_nil] at hmem
  rcases List.append_eq_append_iff.mp hparts with ⟨front, hbefore, hrest'⟩ | ⟨back, hcode, hafter⟩
  · exact hrest front hbefore hrest'
  · cases back with
    | nil => exact hrest [] (by simpa using hcode.symm) hafter.symm
    | cons first back =>
        obtain ⟨rfl, rfl⟩ := List.cons.inj hafter
        have hmem := around_subset [] before back rest (h before line back hcode l hl hdotted)
        rwa [List.nil_append] at hmem

theorem flatten {codes : List (List Line)} (h : ∀ code ∈ codes, Scoped code) :
    Scoped codes.flatten := by
  induction codes with
  | nil =>
      intro before line after hparts
      simp at hparts
  | cons code codes ih =>
      rw [List.flatten_cons]
      exact (h code List.mem_cons_self).append (ih fun other hmem => h other (List.mem_cons_of_mem _ hmem))

/-- No line refers to a label with a dot. -/
theorem of_none (h : ∀ line ∈ code, ∀ l ∈ line.references, l.isDotted = false) : Scoped code := by
  intro before line after hparts l hl hdotted
  rw [h line (by simp [hparts]) l hl] at hdotted
  cases hdotted

/-- All labels that are put have a dot, and those that lines refer to are among them. -/
theorem of_labels (hinside : ∀ l ∈ labels code, l.isDotted = true)
    (h : ∀ line ∈ code, ∀ l ∈ line.references, l.isDotted = true → l ∈ labels code) :
    Scoped code := by
  have hall : ∀ line ∈ code, line.isInside = true := by
    intro line hmem
    cases line with
    | label l =>
        have hdotted := hinside l (mem_labels.mpr hmem)
        have hworded : l.Worded := by cases l <;> trivial
        simpa [Line.isInside, Line.label?, Label.beginsWithDot_text hworded] using hdotted
    | instr => rfl
    | data => rfl
  intro before line after hparts l hl hdotted
  have hput := mem_labels.mp (h line (by simp [hparts]) l hl hdotted)
  rw [around_eq (fun other hmem => hall other (by simp [hparts, hmem]))
    fun other hmem => hall other (by simp [hparts, hmem])]
  rw [hparts, List.mem_append, List.mem_cons] at hput
  -- A line that refers to a label does not put one.
  have hother : .label l ≠ line := by
    rintro rfl
    cases hl
  rcases hput with hbefore | hsame | hafter
  · exact List.mem_append_left _ hbefore
  · exact absurd hsame hother
  · exact List.mem_append_right _ hafter

end Scoped

/-! ## The code of items -/

/-- A code refers to labels with a dot around the place, to other labels that it puts, and to
what is named by the scopes of its program. -/
structure Resolved (scopes : Scopes) (code : List Line) : Prop where
  nearby : Scoped code
  found : ∀ line ∈ code, ∀ l ∈ line.references,
    l.isDotted = true ∨ l ∈ labels code ∨ scopes.Names l

/-- The jumps of a function stay in it. -/
theorem Program.WellFormed.jumps_found {program : Program} (h : program.WellFormed)
    {function : Function} (hmem : .function function ∈ program.items) {state : LowerState}
    (hempty : state.held = .empty) (hdepth : state.depth = 0) :
    Ensures (function.lower program.scopes) state fun _ code _ =>
      ∀ (condition : Condition) (l : Label), .instr (.jump condition l) ∈ code →
        l ∈ labels code := by
  refine (ensures_self _ state).mono ?_
  intro _ code after hrun condition l hjump
  have hcode : program.Emits code function code :=
    ⟨[], [], state, after, by simp, hrun, hempty, hdepth⟩
  obtain ⟨own, operands, hflow, hsame, hown, -⟩ := hcode.flow h hmem
  exact mem_labels.mpr ((hflow.disciplined hsame hown).resolved condition l hjump)

/-- Local labels in the code of a function are resolved inside it. -/
theorem Function.Shown.resolved {scopes : Scopes} {function : Function} {code : List Line}
    (h : function.Shown scopes code)
    (hjumps : ∀ (condition : Condition) (l : Label), .instr (.jump condition l) ∈ code →
      l ∈ labels code) : Resolved scopes code := by
  obtain ⟨body, last, rfl, hbody, hlast⟩ := h
  have hnone : labels last = [] :=
    List.filterMap_eq_nil_iff.mpr fun line hmem => (hlast line hmem).2.1
  have hend : ∀ l : Label, ∀ line ∈ .label l :: last, line.references = [] := by
    intro l line hmem
    rcases List.mem_cons.mp hmem with rfl | hmem
    · rfl
    · exact (hlast line hmem).2.2
  constructor
  · have hscoped : Scoped body := by
      refine .of_labels hbody.labels fun line hmem l hl hdotted => ?_
      rcases hbody.inside line hmem l hl hdotted with ⟨condition, rfl⟩ | hput
      · have hfound := hjumps condition l (by simp [hmem])
        simp only [labels_label, labels_append, hnone, List.mem_cons, List.mem_append,
          List.not_mem_nil, or_false] at hfound
        rcases hfound with rfl | hfound | rfl
        · cases hdotted
        · exact hfound
        · cases hdotted
      · exact hput
    have hstart : Scoped [.label (.symbol function.symbol.name)] :=
      .of_none fun line hmem l hl => by
        rw [List.mem_singleton.mp hmem] at hl
        cases hl
    exact hstart.append (hscoped.append (.of_none fun line hmem l hl => by
      rw [hend _ line hmem] at hl
      cases hl))
  · intro line hmem l hl
    rcases List.mem_cons.mp hmem with rfl | hmem
    · cases hl
    · rcases List.mem_append.mp hmem with hmem | hmem
      · rcases hbody.references line hmem l hl with hdotted | rfl | hnamed
        · exact .inl hdotted
        · exact .inr (.inl (by simp))
        · exact .inr (.inr hnamed)
      · rw [hend _ line hmem] at hl
        cases hl

theorem Declaration.resolved_lowerGlobal (scopes : Scopes) (declared : Declaration)
    (state : LowerState) :
    Ensures declared.lowerGlobal state fun _ code _ => Resolved scopes code := by
  refine (declared.lowerGlobal_code state).mono ?_
  intro _ code _ hcode
  -- A variable refers to its own labels, none of which has a dot.
  have hown : ∀ line ∈ code, ∀ l ∈ line.references, l.isDotted = false ∧ l ∈ labels code := by
    by_cases hexternal : declared.symbol.storage = .external
    · rw [hcode.1 hexternal]
      intro line hmem
      cases hmem
    · obtain ⟨front, data, rfl, hstores⟩ := hcode.2 hexternal
      cases hstores <;>
        simp [head, stringLines, Line.references, Instr.references, Data.references, Label.isDotted]
  refine ⟨.of_none fun line hmem l hl => (hown line hmem l hl).1, fun line hmem l hl => ?_⟩
  exact .inr (.inl (hown line hmem l hl).2)

theorem Program.WellFormed.resolved_item {program : Program} (h : program.WellFormed) {item : Item}
    (hmem : item ∈ program.items) {state : LowerState} (hempty : state.held = .empty)
    (hdepth : state.depth = 0) :
    Ensures (item.lower program.scopes) state fun _ code _ => Resolved program.scopes code := by
  cases item with
  | global declared => exact declared.resolved_lowerGlobal program.scopes state
  | function defined =>
      refine (((h.functions defined hmem).shown_lower h.scopes state).and
        (h.jumps_found hmem hempty hdepth)).mono ?_
      exact fun _ _ _ hcode => hcode.1.resolved hcode.2

/-! ## Compiled programs -/

namespace FileTree.Compiles

variable {tree : FileTree} {source : List (Located Token)} {parsed : Parsed} {lines : List Line}
  (h : tree.Compiles source parsed lines)
include h

/-- An item that is not defined elsewhere has its label in the lines. -/
theorem symbol_mem_labels {item : Item} (hmem : item ∈ parsed.program.items)
    (hown : item.symbol.storage ≠ .external) : .symbol item.name ∈ labels lines := by
  have hput := h.wellFormed.symbol_mem_outerLabels.mpr ⟨item, hmem, hown, rfl⟩
  rw [← h.wellFormed.outer_lines h.lowers] at hput
  exact (mem_outer.mp hput).1

/-- What is named is put, or defined elsewhere. -/
theorem found_of_names {l : Label} (hnamed : parsed.program.scopes.Names l) :
    l ∈ labels lines ∨
      ∃ name, l = .symbol name ∧ DeclaredExternal (source.map (·.value)) name := by
  obtain ⟨scope, symbol, hvisible, hstorage, rfl⟩ := hnamed
  obtain ⟨table, htable, hmem, hplace⟩ := hvisible.places h.wellFormed.scopes
  rcases hstorage with hlabelled | hexternal
  · have hglobal : symbol.scope = globalScope := by
      rw [Scope.Places, hlabelled] at hplace
      exact hplace
    have hvisible' : parsed.program.scopes.Visible globalScope symbol :=
      h.wellFormed.scopes.visible_global.mpr ⟨hglobal, table, hglobal ▸ htable, hmem⟩
    obtain ⟨item, hitem, rfl⟩ := Program.ofTokens_known h.parses hvisible'
    refine .inl ?_
    rw [← item.name_eq]
    exact h.symbol_mem_labels hitem (by rw [hlabelled]; simp)
  · refine .inr ⟨symbol.name, rfl, ?_⟩
    have hcome := (Program.ofTokens_written h.parses).2
    exact (hcome table (List.mem_of_getElem? htable) symbol hmem).external hexternal

/-- What lines refer to is put around them, or somewhere, or defined elsewhere. -/
theorem references_found : Scoped lines ∧
    ∀ line ∈ lines, ∀ l ∈ line.references, l.isDotted = true ∨ l ∈ labels lines ∨
      ∃ name, l = .symbol name ∧ DeclaredExternal (source.map (·.value)) name := by
  obtain ⟨codes, after, hcodes, hlines⟩ := Program.lines_parts h.lowers
  have hresolved : ∀ code ∈ codes, Resolved parsed.program.scopes code :=
    hcodes.forall_mem (fun state => state.held = .empty ∧ state.depth = 0)
      (Resolved parsed.program.scopes) ⟨rfl, rfl⟩ fun item hmem state hstate =>
        (h.wellFormed.item_settled hmem hstate.1 hstate.2).and
          (h.wellFormed.resolved_item hmem hstate.1 hstate.2)
  obtain ⟨main, hmain, hname⟩ := Program.ofTokens_main h.parses
  have hput : .symbol mainName ∈ labels lines := by
    rw [← hname]
    exact h.symbol_mem_labels hmain ((h.wellFormed.functions main hmain).storage_ne h.wellFormed.scopes)
  constructor
  · rw [hlines]
    refine .append (.of_none ?_) (.append (.flatten fun code hmem => (hresolved code hmem).nearby)
      (.of_none ?_))
    · simp [startLines, Line.references, Instr.references, Label.isDotted]
    · simp [Line.references]
  · intro line hmem l hl
    rw [hlines] at hmem
    rcases List.mem_append.mp hmem with hstart | hrest
    · refine .inr (.inl ?_)
      simp only [startLines, List.mem_cons, List.not_mem_nil, or_false] at hstart
      rcases hstart with rfl | rfl | rfl | rfl
      · cases hl
      · rw [List.mem_singleton.mp hl]
        exact hput
      · cases hl
      · rw [List.mem_singleton.mp hl, hlines]
        simp [startLines]
    · rcases List.mem_append.mp hrest with hcode | hheap
      · obtain ⟨code, hmem, hline⟩ := List.mem_flatten.mp hcode
        rcases (hresolved code hmem).found line hline l hl with hdotted | hfound | hnamed
        · exact .inl hdotted
        · refine .inr (.inl (mem_labels.mpr ?_))
          rw [hlines]
          have hflat := List.mem_flatten.mpr ⟨code, hmem, mem_labels.mp hfound⟩
          simp [hflat]
        · exact .inr (h.found_of_names hnamed)
      · rw [List.mem_singleton.mp hheap] at hl
        cases hl

end FileTree.Compiles

/-- No label with a dot is put twice. Every label with a dot that a line refers to is put between
the same two labels without a dot as the line. Every other name that a line refers to is put
somewhere, or the source declares it as defined elsewhere. -/
theorem FileTree.local_labels_sound {tree : FileTree} {source : List (Located Token)}
    {parsed : Parsed} {lines : List Line} (h : tree.Compiles source parsed lines) :
    ((labelTexts lines).filter (beginsWithDot ·)).Nodup ∧
      (∀ before line after, lines = before ++ line :: after → ∀ l ∈ line.references,
        beginsWithDot l.text = true → l.text ∈ labelTexts (around before after)) ∧
      ∀ line ∈ lines, ∀ l ∈ line.references, beginsWithDot l.text = false →
        l.text ∈ labelTexts lines ∨ DeclaredExternal (source.map (·.value)) l.text := by
  obtain ⟨hscoped, hfound⟩ := h.references_found
  have hworded : ∀ line ∈ lines, ∀ l ∈ line.references, l.Worded := by
    intro line hmem l hl
    rcases hfound line hmem l hl with hdotted | hput | ⟨name, rfl, hexternal⟩
    · cases l <;> trivial
    · exact h.worded hput
    · exact h.reads.isWord hexternal.mem
  refine ⟨?_, ?_, ?_⟩
  · have htexts : (labelTexts lines).filter (beginsWithDot ·) =
        ((labels lines).filter (·.isDotted)).map Label.text := h.filter_labelTexts id
    rw [htexts]
    refine List.Nodup.map_on ?_ ((h.wellFormed.labels_nodup h.lowers).filter _)
    intro l hl other hother htext
    have hnot : ∀ {l : Label}, l ∈ (labels lines).filter (·.isDotted) → l.isSymbol = false := by
      intro l hl
      have hdotted : l.isDotted = true := (List.mem_filter.mp hl).2
      cases l <;> first | rfl | cases hdotted
    exact Label.text_injective (hnot hl) (hnot hother) htext
  · intro before line after hparts l hl hdot
    rw [Label.beginsWithDot_text (hworded line (by simp [hparts]) l hl)] at hdot
    exact List.mem_map_of_mem (mem_labels.mpr (hscoped before line after hparts l hl hdot))
  · intro line hmem l hl hdot
    rw [Label.beginsWithDot_text (hworded line hmem l hl)] at hdot
    rcases hfound line hmem l hl with hdotted | hput | ⟨name, rfl, hexternal⟩
    · rw [hdot] at hdotted
      cases hdotted
    · exact .inl (List.mem_map_of_mem hput)
    · exact .inr hexternal

/-! ## A program with labels of both kinds -/

/-- A text with a variable that is defined elsewhere, a loop and a string literal. -/
def portText : String :=
  "extern char port; char main() \x7b while (port) --port; return *\"x\"; \x7d"

/-- A program that needs labels of both kinds compiles, and the labels of its assembly are sound.
-/
theorem port_labels_sound : ∃ compiled source parsed,
    FileTree.bare.compileText .default portText = .ok compiled ∧
      FileTree.bare.Compiles source parsed compiled.assembly.lines ∧
      ((labelTexts compiled.assembly.lines).filter (beginsWithDot ·)).Nodup ∧
      (∀ before line after, compiled.assembly.lines = before ++ line :: after →
        ∀ l ∈ line.references, beginsWithDot l.text = true → l.text ∈ labelTexts (around before after)) ∧
      ∀ line ∈ compiled.assembly.lines, ∀ l ∈ line.references, beginsWithDot l.text = false →
        l.text ∈ labelTexts compiled.assembly.lines ∨
          DeclaredExternal (source.map (·.value)) l.text := by
  have hany : ((FileTree.bare.compileText .default portText).toOption.any fun _ => true) = true := by
    decide +kernel
  obtain ⟨compiled, hcompiled, -⟩ := exists_eq_ok_of_any hany
  obtain ⟨source, parsed, hcompiles⟩ := FileTree.compiles_of_compileText hcompiled
  exact ⟨compiled, source, parsed, hcompiled, hcompiles, FileTree.local_labels_sound hcompiles⟩

end AccumulatorC
