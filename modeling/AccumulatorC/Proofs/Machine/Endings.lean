import AccumulatorC.Proofs.Machine.Execution

/-!
# Ways out of a code

A code of statements ends where it ends, or it goes on behind a label that stands elsewhere: at
the end of the function. Branches and loops end in the way in which the part that is executed last
ends.
-/

namespace AccumulatorC

/-- The lines at which a code is left: those that follow it, or those behind a label. -/
def LeavesTo (program rest : List Line) : Option Label → List Line → Prop
  | none, there => there = rest
  | some l, there => afterLabel program l = some there

/-- Run behind a first part, in any program around both whose labels are different, a code takes
one state to another and is left in a given way. -/
def Ends (platform : Platform) (first code : List Line) (m : Machine) (target : Option Label)
    (after : Machine) : Prop :=
  ∀ before rest there : List Line, (labels (before ++ (first ++ (code ++ rest)))).Nodup →
    LeavesTo (before ++ (first ++ (code ++ rest))) rest target there →
    platform.Reaches (before ++ (first ++ (code ++ rest))) (code ++ rest, m) (there, after)

variable {platform : Platform} {first code rest : List Line} {m middle after : Machine}
  {target : Option Label}

namespace Ends

theorem of_executes (h : Executes platform code m after) :
    Ends platform first code m none after := by
  intro before rest there hnodup hthere
  cases hthere
  rw [← List.append_assoc before] at hnodup ⊢
  exact h (before ++ first) rest hnodup

theorem executes (h : Ends platform [] code m none after) : Executes platform code m after :=
  fun before rest hnodup => h before rest rest hnodup rfl

/-- What is before a code does not matter to it. -/
theorem behind (h : Ends platform [] code m target after) :
    Ends platform first code m target after := by
  intro before rest there hnodup hthere
  rw [← List.append_assoc before] at hnodup hthere ⊢
  exact h (before ++ first) rest there hnodup hthere

/-- A code ends as its second part does. -/
theorem append (h : Executes platform code m middle)
    (h' : Ends platform [] rest middle target after) :
    Ends platform [] (code ++ rest) m target after := by
  intro before following there hnodup hthere
  have hleft : before ++ ([] ++ (code ++ rest ++ following)) =
      before ++ (code ++ (rest ++ following)) := by simp
  have hright : before ++ (code ++ (rest ++ following)) =
      (before ++ code) ++ ([] ++ (rest ++ following)) := by simp
  rw [hleft] at hnodup hthere ⊢
  rw [List.append_assoc]
  refine (h before (rest ++ following) hnodup).trans ?_
  rw [hright] at hnodup hthere ⊢
  exact h' (before ++ code) following there hnodup hthere

/-- A code that goes on elsewhere does not come to what follows it. -/
theorem skip {l : Label} (h : Ends platform first code m (some l) after) (rest : List Line) :
    Ends platform first (code ++ rest) m (some l) after := by
  intro before following there hnodup hthere
  rw [List.append_assoc] at hnodup hthere ⊢
  exact h before (rest ++ following) there hnodup hthere

/-- What follows a part is executed when the part comes to its end. -/
theorem andThen (h : Ends platform [] code m target after)
    (hrest : target = none → Executes platform rest after after) :
    Ends platform [] (code ++ rest) m target after := by
  cases target with
  | none => exact of_executes (h.executes.append (hrest rfl))
  | some l => exact h.skip rest

/-- With a label behind it, a code that ends there or goes on at the label comes to its end. -/
theorem upTo {l : Label} (h : Ends platform [] code m target after)
    (htarget : target = none ∨ target = some l) :
    Executes platform (code ++ [.label l]) m after := by
  rcases htarget with rfl | rfl
  · exact h.executes.append (.label platform l after)
  · intro before following hnodup
    rw [List.append_assoc]
    rw [List.append_assoc] at hnodup
    refine h before (.label l :: following) following hnodup ?_
    rw [LeavesTo, List.nil_append, ← List.append_assoc before]
    rw [← List.append_assoc before] at hnodup
    exact afterLabel_eq hnodup

theorem jump (l : Label) (m : Machine) :
    Ends platform [] [.instr (.jump .always l)] m (some l) m :=
  fun _ _ _ _ hthere => .step (Platform.step_taken rfl hthere) (.refl _)

/-! ## Branches -/

section Branches

variable {test yes no : List Line} {yesLabel noLabel exit : Label}

/-- The lines of a branch around those of its parts. -/
def branchLines (test yes no : List Line) (yesLabel noLabel exit : Label) : List Line :=
  test ++ ([.instr (.jump .equal noLabel), .label yesLabel] ++ (yes ++
    ([.instr (.jump .always exit), .label noLabel] ++ (no ++ [.label exit]))))

/-- If the test leaves something other than zero, the first part of a branch runs and the second
one is jumped over. -/
theorem branch_yes (htest : Executes platform test m middle)
    (hequal : middle.flags.meets .equal = false)
    (hyes : Ends platform [] yes middle target after) :
    Ends platform [] (branchLines test yes no yesLabel noLabel exit) m target after := by
  have hover : Executes platform
      (.instr (.jump .always exit) :: ((.label noLabel :: no) ++ [.label exit])) after after :=
    .taken rfl exit _
  have hpassed : Executes platform [.instr (.jump .equal noLabel), .label yesLabel] middle middle :=
    (Executes.passed hequal noLabel).append (.label platform yesLabel middle)
  exact .append htest (.append hpassed (hyes.andThen fun _ => hover))

/-- If it leaves zero, the second part runs. -/
theorem branch_no (htest : Executes platform test m middle)
    (hequal : middle.flags.meets .equal = true)
    (hno : Ends platform [] no middle target after) :
    Ends platform [] (branchLines test yes no yesLabel noLabel exit) m target after := by
  have hlines : branchLines test yes no yesLabel noLabel exit =
      test ++ ((.instr (.jump .equal noLabel) ::
        ((.label yesLabel :: (yes ++ [.instr (.jump .always exit)])) ++ [.label noLabel])) ++
          (no ++ [.label exit])) := by simp [branchLines]
  have hover : Executes platform (.instr (.jump .equal noLabel) ::
      ((.label yesLabel :: (yes ++ [.instr (.jump .always exit)])) ++ [.label noLabel]))
      middle middle := .taken hequal noLabel _
  rw [hlines]
  exact .append htest (.append hover (hno.andThen fun _ => .label platform exit after))

end Branches

/-! ## Loops -/

section Loops

variable {test body : List Line} {start contents exit : Label}

/-- The lines of a loop behind the label of its start. -/
def loopLines (test body : List Line) (start contents exit : Label) : List Line :=
  test ++ ([.instr (.jump .equal exit), .label contents] ++ (body ++
    [.instr (.jump .always start), .label exit]))

/-- The condition does not hold any more. -/
theorem loop_done (htest : Executes platform test m after) (hequal : after.flags.meets .equal = true) :
    Ends platform first (loopLines test body start contents exit) m none after := by
  have hlines : loopLines test body start contents exit = test ++ (.instr (.jump .equal exit) ::
      ((.label contents :: (body ++ [.instr (.jump .always start)])) ++ [.label exit])) := by
    simp [loopLines]
  rw [hlines]
  exact of_executes (htest.append (.taken hequal exit _))

/-- The loop is left from its body. -/
theorem loop_left {l : Label} (htest : Executes platform test m middle)
    (hequal : middle.flags.meets .equal = false) (hbody : Ends platform [] body middle (some l) after) :
    Ends platform first (loopLines test body start contents exit) m (some l) after := by
  have hpassed : Executes platform [.instr (.jump .equal exit), .label contents] middle middle :=
    (Executes.passed hequal exit).append (.label platform contents middle)
  exact (Ends.append htest (.append hpassed (hbody.skip _))).behind

/-- After a round the loop begins again. -/
theorem loop_again {again : Machine} (htest : Executes platform test m middle)
    (hequal : middle.flags.meets .equal = false) (hbody : Executes platform body middle again)
    (hrest : Ends platform [.label start] (loopLines test body start contents exit) again target
      after) :
    Ends platform [.label start] (loopLines test body start contents exit) m target after := by
  have hpassed : Executes platform [.instr (.jump .equal exit), .label contents] middle middle :=
    (Executes.passed hequal exit).append (.label platform contents middle)
  have hround := htest.append (hpassed.append hbody)
  intro before rest there hnodup hthere
  have hlines : loopLines test body start contents exit ++ rest =
      (test ++ ([.instr (.jump .equal exit), .label contents] ++ body)) ++
        (.instr (.jump .always start) :: .label exit :: rest) := by simp [loopLines]
  have hstart : afterLabel (before ++ ([.label start] ++
      (loopLines test body start contents exit ++ rest))) start =
        some (loopLines test body start contents exit ++ rest) := afterLabel_eq hnodup
  have hreaches := hrest before rest there hnodup hthere
  generalize hprogram : before ++ ([.label start] ++
    (loopLines test body start contents exit ++ rest)) = program at *
  have hcontext : program = (before ++ [.label start]) ++
      ((test ++ ([.instr (.jump .equal exit), .label contents] ++ body)) ++
        (.instr (.jump .always start) :: .label exit :: rest)) := by
    rw [← hprogram, hlines, List.append_assoc before]
  have hfirst := hround (before ++ [.label start])
    (.instr (.jump .always start) :: .label exit :: rest) (hcontext ▸ hnodup)
  rw [← hcontext, ← hlines] at hfirst
  exact hfirst.trans (.step (Platform.step_taken rfl hstart) hreaches)

/-- From its label on a loop runs as from behind it. -/
theorem loop (h : Ends platform [.label start] (loopLines test body start contents exit) m target
    after) :
    Ends platform [] (.label start :: loopLines test body start contents exit) m target after :=
  fun before rest there hnodup hthere => .label (h before rest there hnodup hthere)

end Loops

end Ends

end AccumulatorC
