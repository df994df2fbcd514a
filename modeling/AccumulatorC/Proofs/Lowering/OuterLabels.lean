import AccumulatorC.Proofs.Lowering.GlobalCode
import AccumulatorC.Proofs.Lowering.ItemCodes
import AccumulatorC.Proofs.Lowering.Mentioned

/-!
# The labels without a dot

Labels with a dot belong to the last label without one. Those without a dot are the three of a
program, the names of its items, the ends of its functions, and the two around each string literal
that a variable starts with, which is numbered through the program.
-/

namespace AccumulatorC

open Lowering

/-- The labels without a dot that a code puts, in order. -/
def outer (code : List Line) : List Label := (labels code).filter (!·.isDotted)

@[simp] theorem outer_append (code rest : List Line) : outer (code ++ rest) = outer code ++ outer rest := by
  simp [outer]

theorem outer_label {l : Label} (h : l.isDotted = false) (code : List Line) :
    outer (.label l :: code) = l :: outer code := by
  simp [outer, h]

/-- The outer labels of a code are those without a dot. -/
theorem mem_outer {l : Label} {code : List Line} :
    l ∈ outer code ↔ l ∈ labels code ∧ l.isDotted = false := by
  simp [outer]

/-- The labels without a dot of an item before which there are so many string literals. -/
def Item.outerLabels (strings : Nat) : Item → List Label
  | .global declared =>
      if declared.symbol.storage = .external then []
      else
        (if declared.startsAsString then [.string false strings, .stringEnd false strings] else []) ++
          [.symbol declared.symbol.name]
  | .function defined => [.symbol defined.symbol.name, .exit defined.symbol.name]

/-- The same for items one after the other. -/
def Item.allOuterLabels (strings : Nat) : List Item → List Label
  | [] => []
  | item :: rest => item.outerLabels strings ++ Item.allOuterLabels (strings + item.strings) rest

/-- All labels without a dot that a program puts, in order. -/
def Program.outerLabels (program : Program) : List Label :=
  .entry :: .halt :: (Item.allOuterLabels 0 program.items ++ [.heap])

namespace Item

/-- A label of items belongs to one of them, before which the string literals of others stand. -/
theorem mem_allOuterLabels {l : Label} {strings : Nat} {items : List Item} :
    l ∈ allOuterLabels strings items ↔ ∃ earlier item later, items = earlier ++ item :: later ∧
      l ∈ item.outerLabels (strings + (earlier.map Item.strings).sum) := by
  induction items generalizing strings with
  | nil => simp [allOuterLabels]
  | cons item rest ih =>
      rw [allOuterLabels, List.mem_append, ih]
      constructor
      · rintro (hl | ⟨earlier, other, later, rfl, hl⟩)
        · exact ⟨[], item, rest, rfl, hl⟩
        · refine ⟨item :: earlier, other, later, rfl, ?_⟩
          rwa [List.map_cons, List.sum_cons, ← Nat.add_assoc]
      · rintro ⟨earlier, other, later, hitems, hl⟩
        cases earlier with
        | nil =>
            cases hitems
            exact .inl hl
        | cons first earlier =>
            cases hitems
            rw [List.map_cons, List.sum_cons, ← Nat.add_assoc] at hl
            exact .inr ⟨earlier, other, later, rfl, hl⟩

/-- An item puts the label of no name but its own. -/
theorem name_of_symbol_mem_outerLabels {item : Item} {strings : Nat} {name : String}
    (h : .symbol name ∈ item.outerLabels strings) : item.name = name := by
  cases item with
  | global declared =>
      simp only [outerLabels] at h
      split at h
      · cases h
      · rcases List.mem_append.mp h with hstring | hname
        · split at hstring <;> simp at hstring
        · rw [List.mem_singleton, Label.symbol.injEq] at hname
          exact hname.symm
  | function defined =>
      simp only [outerLabels, List.mem_cons, Label.symbol.injEq, List.not_mem_nil, or_false,
        reduceCtorEq] at h
      exact h.symm

theorem name_of_exit_mem_outerLabels {item : Item} {strings : Nat} {name : String}
    (h : .exit name ∈ item.outerLabels strings) : item.name = name := by
  cases item with
  | global declared =>
      simp only [outerLabels] at h
      split at h
      · cases h
      · rcases List.mem_append.mp h with hstring | hname
        · split at hstring <;> simp at hstring
        · simp at hname
  | function defined =>
      simp only [outerLabels, List.mem_cons, Label.exit.injEq, List.not_mem_nil, or_false,
        reduceCtorEq, false_or] at h
      exact h.symm

end Item

theorem Program.mem_outerLabels {program : Program} {l : Label} :
    l ∈ program.outerLabels ↔ l ∈ [.entry, .halt, .heap] ∨
      ∃ earlier item later, program.items = earlier ++ item :: later ∧
        l ∈ item.outerLabels (earlier.map Item.strings).sum := by
  have hitems := @Item.mem_allOuterLabels l 0 program.items
  simp only [Nat.zero_add] at hitems
  rw [← hitems]
  simp only [outerLabels, List.mem_cons, List.mem_append, List.not_mem_nil, or_false]
  constructor
  · rintro (h | h | h | h) <;> simp [h]
  · rintro ((h | h | h) | h) <;> simp [h]

/-! ## Items -/

theorem Declaration.Stores.outer_front {declared : Declaration} {strings : Nat} {front : List Line}
    {data : Data} (h : declared.Stores strings front data) :
    outer front =
      if declared.startsAsString then [.string false strings, .stringEnd false strings] else [] := by
  cases h with
  | nothing hnone => simp [startsAsString, hnone, outer]
  | string hvalue => simp [startsAsString, hvalue, Expr.isString, outer, stringLines, Label.isDotted]
  | byte hvalue hstring => simp [startsAsString, hvalue, hstring, outer]
  | word hvalue hstring => simp [startsAsString, hvalue, hstring, outer]

theorem Declaration.outer_lowerGlobal (declared : Declaration) (state : LowerState) :
    Ensures declared.lowerGlobal state fun _ code _ =>
      outer code = (Item.global declared).outerLabels (state.labels.count .string) := by
  refine (declared.lowerGlobal_code state).mono ?_
  intro _ code _ hcode
  rw [Item.outerLabels]
  split
  next hexternal =>
    rw [hcode.1 hexternal]
    rfl
  next hown =>
    obtain ⟨front, data, rfl, hstores⟩ := hcode.2 hown
    rw [outer_append, hstores.outer_front]
    rfl

/-- Inside a function no label is without a dot. -/
theorem Exhibits.outer_eq {named : Label → Prop} {mentioned : List Mention} {code : List Line}
    (h : Exhibits named mentioned code) : outer code = [] := by
  rw [outer, List.filter_eq_nil_iff]
  intro l hl
  simp [h.labels l hl]

theorem Function.Shown.outer_eq {scopes : Scopes} {function : Function} {code : List Line}
    (h : function.Shown scopes code) (strings : Nat) :
    outer code = (Item.function function).outerLabels strings := by
  obtain ⟨body, last, rfl, hbody, hlast⟩ := h
  have hnone : labels last = [] :=
    List.filterMap_eq_nil_iff.mpr fun line hmem => (hlast line hmem).2.1
  have hend : outer last = [] := by rw [outer, hnone]; rfl
  rw [outer_label rfl, outer_append, hbody.outer_eq, outer_label rfl, hend]
  rfl

/-! ## Programs -/

namespace Program.WellFormed

variable {program : Program} (h : program.WellFormed)
include h

theorem outer_item {item : Item} (hmem : item ∈ program.items) (state : LowerState) :
    Ensures (item.lower program.scopes) state fun _ code _ =>
      outer code = item.outerLabels (state.labels.count .string) := by
  cases item with
  | global declared => exact declared.outer_lowerGlobal state
  | function defined =>
      exact ((h.functions defined hmem).shown_lower h.scopes state).mono fun _ _ _ hshown =>
        hshown.outer_eq _

theorem outer_items {state after : LowerState} {items : List Item} {codes : List (List Line)}
    (hcodes : ItemCodes program.scopes state items codes after)
    (hmem : ∀ item ∈ items, item ∈ program.items) :
    outer codes.flatten = Item.allOuterLabels (state.labels.count .string) items := by
  induction hcodes with
  | nil => rfl
  | @cons state middle after item items code codes head tail ih =>
      have hitem := hmem item List.mem_cons_self
      have hcount := (h.addsStrings_item hitem state).apply head
      rw [List.flatten_cons, outer_append, Item.allOuterLabels, (h.outer_item hitem state).apply head,
        ih fun other hother => hmem other (List.mem_cons_of_mem _ hother), hcount]

/-- The labels without a dot in the lines of a program. -/
theorem outer_lines {lines : List Line} (hlines : program.lines = .ok lines) :
    outer lines = program.outerLabels := by
  obtain ⟨codes, after, hcodes, rfl⟩ := Program.lines_parts hlines
  have hitems := h.outer_items hcodes fun _ hmem => hmem
  rw [outer_append, outer_append, hitems]
  rfl

end Program.WellFormed

end AccumulatorC
