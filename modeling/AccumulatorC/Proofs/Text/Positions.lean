import AccumulatorC.Text.Lines

/-!
# Positions in a source

Positions are ordered as a source is read: by lines, and within a line by columns. A character ends
no later than the next one starts, so the characters of a source are placed in order and apart.
-/

namespace AccumulatorC

namespace Position

/-- One position comes before another one. -/
instance : LT Position where
  lt p q := p.line < q.line ∨ p.line = q.line ∧ p.column < q.column

/-- One position comes before another one or is the same. -/
instance : LE Position where
  le p q := p.line < q.line ∨ p.line = q.line ∧ p.column ≤ q.column

theorem lt_iff {p q : Position} :
    p < q ↔ p.line < q.line ∨ p.line = q.line ∧ p.column < q.column := Iff.rfl

theorem le_iff {p q : Position} :
    p ≤ q ↔ p.line < q.line ∨ p.line = q.line ∧ p.column ≤ q.column := Iff.rfl

instance (p q : Position) : Decidable (p < q) := decidable_of_iff _ lt_iff.symm

instance (p q : Position) : Decidable (p ≤ q) := decidable_of_iff _ le_iff.symm

variable {p q r : Position}

theorem le_refl : p ≤ p := by
  rw [le_iff]
  omega

theorem le_trans (h : p ≤ q) (hnext : q ≤ r) : p ≤ r := by
  rw [le_iff] at *
  omega

theorem lt_of_lt_of_le (h : p < q) (hnext : q ≤ r) : p < r := by
  rw [le_iff] at *
  rw [lt_iff] at *
  omega

theorem le_of_lt (h : p < q) : p ≤ q := by
  rw [lt_iff] at h
  rw [le_iff]
  omega

/-- On one line, positions are in the order of their columns. -/
theorem column_le_of_le (h : p ≤ q) (hline : q.line = p.line) : p.column ≤ q.column := by
  rcases le_iff.mp h with hlt | ⟨-, hcolumn⟩
  · exact absurd hline (Nat.ne_of_gt hlt)
  · exact hcolumn

theorem not_lt : ¬p < q ↔ q ≤ p := by
  rw [lt_iff, le_iff]
  omega

theorem not_le : ¬p ≤ q ↔ q < p := by
  rw [lt_iff, le_iff]
  omega

theorem lt_irrefl : ¬p < p := not_lt.mpr le_refl

theorem lt_advance : p < p.advance := by
  rw [lt_iff]
  exact .inr ⟨rfl, Nat.lt_succ_self _⟩

@[simp] theorem advance_line : p.advance.line = p.line := rfl

@[simp] theorem after_line (c : Char) : (p.after c).line = p.line := by
  unfold after
  split <;> rfl

/-- A character takes its own column, and a tab some more. -/
theorem advance_le_after (c : Char) : p.advance ≤ p.after c := by
  rw [le_iff]
  refine .inr ⟨by rw [after_line, advance_line], ?_⟩
  unfold after
  split
  · simp only [advance, tab, tabWidth]
    omega
  · exact Nat.le_refl _

theorem le_after (c : Char) : p ≤ p.after c :=
  le_of_lt (lt_of_lt_of_le lt_advance (advance_le_after c))

end Position

/-! ## Characters of a line -/

/-- The text of located characters. -/
def textOf (chars : List (Located Char)) : List Char := chars.map (·.value)

/-- The text of characters behind each other is made of both. -/
@[simp] theorem textOf_append (first second : List (Located Char)) :
    textOf (first ++ second) = textOf first ++ textOf second := List.map_append

@[simp] theorem textOf_length (chars : List (Located Char)) :
    (textOf chars).length = chars.length := List.length_map _

section Locate

variable {source : Source} {p : Position}

theorem locate_append (first second : List Char) :
    locate source p (first ++ second) =
      locate source p first ++ locate source (p.afterAll first) second := by
  induction first generalizing p with
  | nil => rfl
  | cons c rest ih => rw [List.cons_append, locate, ih, locate, List.cons_append]; rfl

@[simp] theorem textOf_locate (chars : List Char) : textOf (locate source p chars) = chars := by
  induction chars generalizing p with
  | nil => rfl
  | cons c rest ih => rw [locate, textOf, List.map_cons, ← textOf, ih]

@[simp] theorem locate_length (chars : List Char) :
    (locate source p chars).length = chars.length := by
  rw [← textOf_length, textOf_locate]

/-- A character of a line stands in one cell, not before the first of them. -/
theorem cell_of_mem_locate {chars : List Char} {c : Located Char}
    (h : c ∈ locate source p chars) :
    ∃ q, c.location = .cell source q ∧ p ≤ q ∧ q.line = p.line := by
  induction chars generalizing p with
  | nil => cases h
  | cons first rest ih =>
      rw [locate] at h
      cases h with
      | head => exact ⟨p, rfl, Position.le_refl, rfl⟩
      | tail _ h =>
          obtain ⟨q, hcell, hle, hline⟩ := ih h
          exact ⟨q, hcell, Position.le_trans (Position.le_after first) hle,
            hline.trans (Position.after_line first)⟩

/-- One character ends before another one starts. -/
def Located.Precedes {α β : Type} (first : Located α) (second : Located β) : Prop :=
  first.location.stop ≤ second.location.start

theorem locate_pairwise (chars : List Char) :
    (locate source p chars).Pairwise Located.Precedes := by
  induction chars generalizing p with
  | nil => exact .nil
  | cons first rest ih =>
      rw [locate]
      refine .cons (fun c hmem => ?_) ih
      obtain ⟨q, hcell, hle, -⟩ := cell_of_mem_locate hmem
      rw [Located.Precedes, hcell]
      exact Position.le_trans (Position.advance_le_after first) hle

end Locate

/-! ## Characters of a source -/

/-- A character takes one cell. -/
def Located.InCell (c : Located Char) : Prop := c.location.stop = c.location.start.advance

namespace Reading

variable {source : Source} {number : Nat} {lines : List (Option (List Char))}

/-- Characters of a source stand in cells of their lines. -/
theorem cell_of_mem_charactersFrom {c : Located Char}
    (h : some c ∈ charactersFrom source number lines) :
    ∃ q, c.location = .cell source q ∧ number ≤ q.line := by
  induction lines generalizing number with
  | nil => cases h
  | cons line lines ih =>
      have hlater : ∀ {next}, some c ∈ charactersFrom source (next + 1) lines →
          ∃ q, c.location = .cell source q ∧ next ≤ q.line := by
        intro next hmem
        obtain ⟨q, hcell, hle⟩ := ih hmem
        exact ⟨q, hcell, Nat.le_of_succ_le hle⟩
      cases line with
      | none =>
          rcases List.mem_cons.mp h with h | h
          · cases h
          · exact hlater h
      | some line =>
          rcases List.mem_append.mp h with h | h
          · obtain ⟨own, hmem, hown⟩ := List.mem_map.mp h
            cases hown
            obtain ⟨q, hcell, -, hline⟩ := cell_of_mem_locate hmem
            exact ⟨q, hcell, Nat.le_of_eq hline.symm⟩
          · exact hlater h

/-- The characters of a source are placed in order and apart, whichever of its lines can be read. -/
theorem charactersFrom_pairwise (source : Source) (number : Nat)
    (lines : List (Option (List Char))) :
    (charactersFrom source number lines).Pairwise fun first second =>
      ∀ c ∈ first, ∀ d ∈ second, Located.Precedes c d := by
  induction lines generalizing number with
  | nil => exact .nil
  | cons line lines ih =>
      cases line with
      | none => exact .cons (fun _ _ _ hmem => nomatch hmem) (ih _)
      | some line =>
          refine List.pairwise_append.mpr ⟨?_, ih _, ?_⟩
          · rw [List.pairwise_map]
            refine (locate_pairwise line).imp fun hprecedes c hc d hd => ?_
            rwa [← Option.mem_some_iff.mp hc, ← Option.mem_some_iff.mp hd]
          · -- A later line has a greater number.
            intro first hfirst second hsecond c hc d hd
            obtain ⟨own, hown, rfl⟩ := List.mem_map.mp hfirst
            obtain rfl := Option.mem_some_iff.mp hc
            obtain ⟨p, hp, -, hline⟩ := cell_of_mem_locate hown
            obtain ⟨q, hq, hle⟩ := cell_of_mem_charactersFrom (Option.mem_def.mp hd ▸ hsecond)
            rw [Located.Precedes, hp, hq]
            exact .inl (hline ▸ hle)

/-- The characters of a source that can be read are placed in order and apart. -/
theorem pairwise_of_charactersFrom {chars : List (Located Char)}
    (h : charactersFrom source number lines = chars.map some) :
    chars.Pairwise Located.Precedes := by
  have hall := charactersFrom_pairwise source number lines
  rw [h, List.pairwise_map] at hall
  exact hall.imp fun hprecedes => hprecedes _ rfl _ rfl

end Reading

end AccumulatorC
