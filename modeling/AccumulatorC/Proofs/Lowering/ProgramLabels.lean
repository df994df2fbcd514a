import AccumulatorC.Proofs.Lowering.Strings
import AccumulatorC.Proofs.Program.Constants

/-!
# The labels of programs

Besides numbered labels a program puts those that carry the names of its items, and three of its
own. No name is declared twice, so all labels in the lines of a program differ from one another,
and string literals are numbered through the items in their order.
-/

namespace AccumulatorC

open Lowering

/-- The labels that carry the name of an item: a function has one at its end as well, and a variable
that is defined elsewhere has none. -/
def Item.labels : Item → List Label
  | .global declared =>
      if declared.symbol.storage = .external then [] else [.symbol declared.symbol.name]
  | .function defined => [.symbol defined.symbol.name, .exit defined.symbol.name]

/-- How many string literals an item has data for. -/
def Item.strings : Item → Nat
  | .global declared =>
      if declared.symbol.storage = .external then 0 else declared.initial.elim 0 Expr.strings
  | .function defined => defined.nodes.countP Expr.isString

/-- A step puts labels of its own, each once, and numbered ones. -/
def Lowering.Puts (own : List Label) (step : Lowering Unit) : Prop :=
  ∀ state, Ensures step state fun _ code after => ∃ numbered : List Line,
    (labels code).Perm (own ++ labels numbered) ∧ Numbers state.labels after.labels numbered

/-- Steps behind each other put the labels of both. -/
theorem Lowering.Puts.bind {own others : List Label} {step next : Lowering Unit} (h : Puts own step)
    (hnext : Puts others next) : Puts (own ++ others) (step >>= fun _ => next) := by
  intro state
  rw [ensures_bind]
  refine (h state).mono ?_
  rintro _ code middle ⟨numbered, hperm, hnumbers⟩
  refine (hnext middle).mono ?_
  rintro _ rest after ⟨numbered', hperm', hnumbers'⟩
  refine ⟨numbered ++ numbered', ?_, hnumbers.append hnumbers'⟩
  rw [labels_append, labels_append]
  refine (hperm.append hperm').trans ?_
  rw [List.perm_iff_count]
  intro l
  simp only [List.count_append]
  omega

theorem Lowering.Puts.mark (l : Label) : Puts [l] (mark l) := by
  intro state
  rw [ensures_mark]
  exact ⟨[], .refl _, .of_labels_nil rfl⟩

theorem Lowering.Puts.none {step : Lowering Unit} (h : Marks [] step) : Puts [] step := by
  intro state
  refine (h state).mono ?_
  rintro _ code after ⟨hlabels, hcounts⟩
  refine ⟨code, .refl _, ?_⟩
  rw [hcounts]
  exact .of_labels_nil hlabels

/-! ## Items -/

section Items

variable {scopes : Scopes}

theorem Declaration.counts_data (declared : Declaration) : Counts declared.data := by
  unfold Declaration.data
  split
  · exact (Marks.pure _).counts
  · exact (counts_stringData _ _).bind fun _ => (Marks.pure _).counts
  · split
    · exact (Marks.fail _).counts
    · exact (Marks.ite (Marks.pure _) (Marks.pure _)).counts

theorem Declaration.puts_lowerGlobal (declared : Declaration) :
    Puts (Item.global declared).labels declared.lowerGlobal := by
  intro state
  unfold Declaration.lowerGlobal
  simp only [ensures_ite, ensures_pure, ensures_bind, ensures_visit, ensures_emit, ensures_mark,
    ensures_line]
  constructor
  · intro hexternal
    rw [Item.labels, if_pos hexternal]
    exact ⟨[], .refl _, .of_labels_nil rfl⟩
  · intro hown
    rw [Item.labels, if_neg hown]
    refine (declared.counts_data _).mono ?_
    intro _ code after hnumbers
    exact ⟨code, by simp, hnumbers⟩

theorem Function.WellFormed.puts_lower {function : Function} (h : function.WellFormed scopes) :
    Puts (Item.function function).labels (function.lower scopes) := by
  intro state
  refine (h.labels_lower state).mono ?_
  rintro _ code after ⟨body, hlabels, hnumbers⟩
  refine ⟨body, ?_, hnumbers⟩
  rw [hlabels, Item.labels]
  exact (List.perm_append_singleton _ _).cons _

/-- A constant that is no string has no string in it. -/
theorem Expr.Numeric.strings_eq_zero {e : Expr} (h : e.Numeric) : e.strings = 0 := by
  unfold Expr.strings
  induction h with
  | number => simp [Expr.nodes, Expr.isString]
  | plus _ _ _ ih => simpa [Expr.nodes, Expr.isString] using ih
  | negate _ _ _ ih => simpa [Expr.nodes, Expr.isString] using ih
  | binary _ _ _ _ ihleft ihright => simp [Expr.nodes, Expr.isString, ihleft, ihright]

theorem Declaration.addsStrings_data {declared : Declaration}
    (h : ∀ value, declared.initial = some value →
      value.WellFormed scopes globalScope ∧ value.isInitializer = true) :
    AddsStrings (declared.initial.elim 0 Expr.strings) declared.data := by
  unfold Declaration.data
  split
  next hnone =>
    rw [hnone]
    exact (Marks.pure _).addsNone
  next note bytes hstring =>
    have hone : (Expr.string note bytes).strings = 1 := rfl
    rw [hstring, Option.elim_some, hone]
    exact (addsOne_stringData _ _).thenNone fun _ => (Marks.pure _).addsNone
  next value hnotString hvalue =>
    obtain ⟨hwf, hinitializer⟩ := h value hvalue
    have hnumeric : value.Numeric := by
      refine hwf.numeric ?_ ?_
      · simp only [Expr.isInitializer, Bool.and_eq_true] at hinitializer
        exact hinitializer.1
      · cases value with
        | string note bytes => exact absurd rfl (hnotString note bytes)
        | _ => rfl
    rw [hvalue, Option.elim_some, hnumeric.strings_eq_zero]
    split
    · exact (Marks.fail _).addsNone
    · exact (Marks.ite (Marks.pure _) (Marks.pure _)).addsNone

theorem Declaration.addsStrings_lowerGlobal {declared : Declaration}
    (h : ∀ value, declared.initial = some value →
      value.WellFormed scopes globalScope ∧ value.isInitializer = true) :
    AddsStrings (Item.global declared).strings declared.lowerGlobal := by
  intro state
  unfold Declaration.lowerGlobal
  simp only [ensures_ite, ensures_pure, ensures_bind, ensures_visit, ensures_emit, ensures_mark,
    ensures_line]
  constructor
  · intro hexternal
    rw [Item.strings, if_pos hexternal, Nat.add_zero]
  · intro hown
    rw [Item.strings, if_neg hown]
    exact Declaration.addsStrings_data h _

/-- A function numbers the strings of its body. -/
theorem Function.WellFormed.addsStrings_lower {function : Function} (h : function.WellFormed scopes) :
    AddsStrings (Item.function function).strings (function.lower scopes) := by
  obtain ⟨result, types, table, -, -, -, hbody⟩ := h.signature
  have hstatements : AddsStrings (function.nodes.countP Expr.isString)
      (lowerStatements ⟨scopes, function.symbol.name, function.symbol.resultSize, function.scope⟩
        function.body) :=
    addsStrings_lowerStatements fun statement hmem =>
      Statement.WellFormed.addsStrings (hbody statement hmem)
  intro state
  unfold Function.lower
  simp only [ensures_bind, ensures_visit, ensures_lift, ensures_mark, ensures_reserve,
    ensures_release, ensures_emit]
  intro size hsize
  exact hstatements _

theorem puts_items {items : List Item}
    (h : ∀ item ∈ items, Puts item.labels (item.lower scopes)) :
    Puts (items.flatMap Item.labels) (items.forM (Item.lower scopes)) := by
  induction items with
  | nil => exact .none (Marks.pure _)
  | cons item items ih =>
      rw [List.flatMap_cons]
      exact (h item List.mem_cons_self).bind (ih fun other hmem => h other (List.mem_cons_of_mem _ hmem))

theorem addsStrings_items {items : List Item}
    (h : ∀ item ∈ items, AddsStrings item.strings (item.lower scopes)) :
    AddsStrings (items.map Item.strings).sum (items.forM (Item.lower scopes)) := by
  induction items with
  | nil => exact (Marks.pure _).addsNone
  | cons item items ih =>
      rw [List.map_cons, List.sum_cons]
      exact (h item List.mem_cons_self).bind fun _ =>
        ih fun other hmem => h other (List.mem_cons_of_mem _ hmem)

end Items

/-! ## Programs -/

theorem Item.eq_of_mem_labels {item : Item} {l : Label} (h : l ∈ item.labels) :
    l = .symbol item.name ∨ l = .exit item.name := by
  cases item with
  | global declared =>
      simp only [Item.labels] at h
      split at h
      · cases h
      · exact .inl (List.mem_singleton.mp h)
  | function defined => simpa [Item.labels, Item.name] using h

/-- Items with different names have different labels. -/
theorem Item.nodup_labels {items : List Item} (h : (items.map Item.name).Nodup) :
    (items.flatMap Item.labels).Nodup := by
  rw [List.nodup_flatMap]
  constructor
  · intro item _
    cases item with
    | global declared =>
        simp only [Item.labels]
        split
        · exact List.nodup_nil
        · exact List.nodup_singleton _
    | function defined => simp [Item.labels]
  · refine (List.pairwise_map.mp h).imp ?_
    intro item other hname l hl hl'
    rcases Item.eq_of_mem_labels hl with rfl | rfl <;>
      rcases Item.eq_of_mem_labels hl' with hsame | hsame
    · exact hname (Label.symbol.inj hsame)
    · cases hsame
    · cases hsame
    · exact hname (Label.exit.inj hsame)

namespace Program.WellFormed

variable {program : Program} (h : program.WellFormed)
include h

theorem puts_item {item : Item} (hmem : item ∈ program.items) :
    Puts item.labels (item.lower program.scopes) := by
  cases item with
  | global declared => exact declared.puts_lowerGlobal
  | function defined => exact (h.functions defined hmem).puts_lower

theorem addsStrings_item {item : Item} (hmem : item ∈ program.items) :
    AddsStrings item.strings (item.lower program.scopes) := by
  cases item with
  | global declared =>
      exact Declaration.addsStrings_lowerGlobal fun value hvalue =>
        have hglobal := h.globals declared value hmem hvalue
        ⟨hglobal.1, hglobal.2.2⟩
  | function defined => exact (h.functions defined hmem).addsStrings_lower

/-- All labels in the lines of a program differ from one another. -/
theorem labels_nodup {lines : List Line} (hlines : program.lines = .ok lines) :
    (labels lines).Nodup := by
  have hlower : Ensures program.lower .initial fun _ lines _ => (labels lines).Nodup := by
    unfold Program.lower
    simp only [ensures_bind, ensures_mark, ensures_emit]
    refine (puts_items (fun item hmem => h.puts_item hmem) _).mono ?_
    rintro _ code after ⟨numbered, hperm, hnumbers⟩
    have hwhole : (labels ([.label .entry] ++ ([.instr (.call mainName)] ++ ([.label .halt] ++
        ([.instr (.jump .always .halt)] ++ (code ++ [.label .heap])))))).Perm
        ([.entry, .halt, .heap] ++ (program.items.flatMap Item.labels ++ labels numbered)) := by
      simp only [labels_append, labels_label, labels_instr, labels_nil]
      rw [List.perm_iff_count] at hperm ⊢
      intro l
      have hcount := hperm l
      simp only [List.count_append, List.count_cons, List.count_nil] at hcount ⊢
      omega
    rw [hwhole.nodup_iff, List.nodup_append, List.nodup_append]
    refine ⟨by decide, ⟨Item.nodup_labels h.names, hnumbers.nodup, ?_⟩, ?_⟩
    · intro l hl other hother heq
      subst heq
      obtain ⟨item, -, hitem⟩ := List.mem_flatMap.mp hl
      have hnumbered := hnumbers.numbered l hother
      rcases Item.eq_of_mem_labels hitem with rfl | rfl <;> exact hnumbered
    · intro l hl other hother heq
      subst heq
      rcases List.mem_append.mp hother with hitem | hnumbered
      · obtain ⟨item, -, hitem⟩ := List.mem_flatMap.mp hitem
        rcases Item.eq_of_mem_labels hitem with rfl | rfl <;> simp at hl
      · have hnumbered := hnumbers.numbered l hnumbered
        simp only [List.mem_cons, List.not_mem_nil, or_false] at hl
        rcases hl with rfl | rfl | rfl <;> exact hnumbered
  simp only [Program.lines, map_eq_ok] at hlines
  obtain ⟨done, hdone, rfl⟩ := hlines
  exact hlower done hdone

end Program.WellFormed

end AccumulatorC
