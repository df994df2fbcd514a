import AccumulatorC.Proofs.StackDiscipline

/-!
# The codes of items

The lines of a program are a few of its own, the codes of its items in their order, and the label
of the heap. Each item is lowered from the state that the one before it leaves, with no register in
use and nothing pushed.
-/

namespace AccumulatorC

open Lowering

/-- What stands in front of the codes of items: a call of the main function, and where it returns
to. -/
def startLines : List Line :=
  [.label .entry, .instr (.call mainName), .label .halt, .instr (.jump .always .halt)]

/-- Codes of items that are lowered one after the other, from one state to another. -/
inductive ItemCodes (scopes : Scopes) :
    LowerState → List Item → List (List Line) → LowerState → Prop
  | nil (state : LowerState) : ItemCodes scopes state [] [] state
  | cons {state middle after : LowerState} {item : Item} {items : List Item} {code : List Line}
      {codes : List (List Line)}
      (head : (item.lower scopes).run state = .ok ⟨(), code, middle⟩)
      (tail : ItemCodes scopes middle items codes after) :
      ItemCodes scopes state (item :: items) (code :: codes) after

/-- The code of a program consists of those of its items. -/
theorem forM_items_codes {scopes : Scopes} (items : List Item) (state : LowerState) :
    Ensures (items.forM (Item.lower scopes)) state fun _ code after =>
      ∃ codes, ItemCodes scopes state items codes after ∧ code = codes.flatten := by
  induction items generalizing state with
  | nil =>
      rw [List.forM_eq_forM, List.forM_nil, ensures_pure]
      exact ⟨[], .nil state, rfl⟩
  | cons item items ih =>
      rw [List.forM_eq_forM, List.forM_cons, ensures_bind]
      refine (ensures_self _ state).mono ?_
      intro _ code middle hrun
      refine (ih middle).mono ?_
      intro _ rest after hrest
      obtain ⟨codes, htail, rfl⟩ := hrest
      exact ⟨code :: codes, .cons hrun htail, rfl⟩

namespace Program

variable {program : Program} {lines : List Line}

/-- The lines of a program, item by item. -/
theorem lines_parts (hlines : program.lines = .ok lines) :
    ∃ codes after, ItemCodes program.scopes .initial program.items codes after ∧
      lines = startLines ++ (codes.flatten ++ [.label .heap]) := by
  have hlower : Ensures program.lower .initial fun _ lines _ =>
      ∃ codes after, ItemCodes program.scopes .initial program.items codes after ∧
        lines = startLines ++ (codes.flatten ++ [.label .heap]) := by
    unfold Program.lower
    simp only [ensures_bind, ensures_mark, ensures_emit]
    refine (forM_items_codes program.items .initial).mono ?_
    intro _ code after hcodes
    obtain ⟨codes, hcodes, rfl⟩ := hcodes
    exact ⟨codes, after, hcodes, rfl⟩
  simp only [Program.lines, map_eq_ok] at hlines
  obtain ⟨done, hdone, rfl⟩ := hlines
  exact hlower done hdone

end Program

namespace ItemCodes

variable {scopes : Scopes} {state after : LowerState} {items : List Item}
  {codes : List (List Line)}

/-- The code of one item, and those of the items before and behind it. -/
theorem split {earlier later : List Item} {item : Item}
    (h : ItemCodes scopes state (earlier ++ item :: later) codes after) :
    ∃ before code behind start rest, codes = before ++ code :: behind ∧
      ItemCodes scopes state earlier before start ∧
      (item.lower scopes).run start = .ok ⟨(), code, rest⟩ ∧
      ItemCodes scopes rest later behind after := by
  induction earlier generalizing state codes with
  | nil =>
      cases h with
      | cons head tail => exact ⟨[], _, _, _, _, rfl, .nil _, head, tail⟩
  | cons first earlier ih =>
      cases h with
      | cons head tail =>
          obtain ⟨before, code, behind, start, rest, rfl, hbefore, hcode, hbehind⟩ := ih tail
          exact ⟨_ :: before, code, behind, start, rest, rfl, .cons head hbefore, hcode, hbehind⟩

/-- What holds of the codes of items, one by one, if all of them keep something of the state. -/
theorem forall₂ (keeps : LowerState → Prop) (holds : Item → List Line → Prop)
    (h : ItemCodes scopes state items codes after) (hstate : keeps state)
    (hitem : ∀ item ∈ items, ∀ state, keeps state →
      Ensures (item.lower scopes) state fun _ code after => keeps after ∧ holds item code) :
    List.Forall₂ holds items codes := by
  induction h with
  | nil => exact .nil
  | @cons _ _ _ item items _ _ head tail ih =>
      have hfirst := (hitem item List.mem_cons_self _ hstate).apply head
      exact .cons hfirst.2 (ih hfirst.1 fun item hmem => hitem item (List.mem_cons_of_mem _ hmem))

/-- What holds of the code of every item holds of all codes. -/
theorem forall_mem (keeps : LowerState → Prop) (holds : List Line → Prop)
    (h : ItemCodes scopes state items codes after) (hstate : keeps state)
    (hitem : ∀ item ∈ items, ∀ state, keeps state →
      Ensures (item.lower scopes) state fun _ code after => keeps after ∧ holds code) :
    ∀ code ∈ codes, holds code := by
  have hcodes := h.forall₂ keeps (fun _ code => holds code) hstate hitem
  clear h hstate hitem
  induction hcodes with
  | nil => simp
  | cons hfirst _ ih => exact List.forall_mem_cons.mpr ⟨hfirst, ih⟩

end ItemCodes

/-- Every item leaves no register in use and nothing pushed where it found it so. -/
theorem Program.WellFormed.item_settled {program : Program} (h : program.WellFormed) {item : Item}
    (hmem : item ∈ program.items) {state : LowerState} (hempty : state.held = .empty)
    (hdepth : state.depth = 0) :
    Ensures (item.lower program.scopes) state fun _ _ after =>
      after.held = .empty ∧ after.depth = 0 := by
  cases item with
  | global declared =>
      refine (keeps_lowerGlobal declared state).mono ?_
      intro _ _ after hafter
      exact ⟨hafter.1.trans hempty, hafter.2.trans hdepth⟩
  | function defined =>
      have hfree : state.held.ConflictFree := by
        rw [hempty]
        exact RegSet.conflictFree_empty
      refine ((h.functions defined hmem).settled h.scopes hfree hdepth).mono ?_
      intro _ _ after hafter
      exact ⟨hafter.1.trans hempty, hafter.2.1⟩

end AccumulatorC
