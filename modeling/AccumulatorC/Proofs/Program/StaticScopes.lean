import AccumulatorC.Proofs.Program.Scoping
import AccumulatorC.Proofs.Program.Statics

/-!
# The scopes of typed trees

While a phrase or a source elaborates, its scopes only grow: the innermost one may get symbols and
bytes, new scopes are added, and all others stay as they are.
-/

namespace AccumulatorC

open Scopes

theorem Variable.Elaborates.grows {given after : Parser.Setting} {declared : Variable}
    {d : Declaration} {warnings : List Conversion} (h : declared.Elaborates given d after warnings) :
    given.scopes.Grows after.scopes given.scope := by
  cases h with
  | plain _ hdeclare => exact grows_declare hdeclare
  | initial _ _ _ hdeclare => exact grows_declare hdeclare

mutual

theorem Phrase.Elaborates.grows : ∀ {given after : Parser.Setting} {phrase : Phrase}
    {statement : Statement} {warnings : List Conversion},
    phrase.Elaborates given statement after warnings →
      given.scopes.Grows after.scopes given.scope
  | _, _, _, _, _, .declaration h => h.grows
  | _, _, _, _, _, .expression _ _ => .refl _ _
  | _, _, _, _, _, .returnNothing _ => .refl _ _
  | _, _, _, _, _, .returnValue _ _ => .refl _ _
  | _, _, _, _, _, .branch _ _ hyes => hyes.grows
  | _, _, _, _, _, .choice _ _ hyes hno => hyes.grows.trans (hyes.keeps.1 ▸ hno.grows)
  | _, _, _, _, _, .loop _ _ hbody => hbody.grows
  | _, _, _, _, _, .block henter hbody => grows_enter henter hbody.grows _

theorem Phrase.AllElaborate.grows : ∀ {given after : Parser.Setting} {phrases : List Phrase}
    {statements : List Statement} {warnings : List Conversion},
    AllElaborate given phrases statements after warnings →
      given.scopes.Grows after.scopes given.scope
  | _, _, _, _, _, .nil => .refl _ _
  | _, _, _, _, _, .cons h hrest => h.grows.trans (h.keeps.1 ▸ hrest.grows)

end

theorem Parameter.AllElaborate.grows {scope : ScopeId} {scopes after : Scopes}
    {parameters : List Parameter} (h : AllElaborate scope scopes parameters after) :
    scopes.Grows after scope := by
  induction h with
  | nil => exact .refl _ _
  | cons _ hdeclare _ ih => exact (grows_declare hdeclare).trans ih

/-- A function adds scopes of its own, and its name to the global one. -/
theorem Routine.Elaborates.grows {scopes after : Scopes} {defined : Routine} {f : Function}
    {warnings : List Conversion} (h : defined.Elaborates scopes f after warnings) :
    scopes.Grows after globalScope := by
  obtain ⟨henter, hparameters, hreserve, hdeclare, hopen, hbody⟩ := h
  have hframe := hparameters.grows.trans (grows_reserve hreserve)
  exact (grows_enter henter hframe _).trans
    ((grows_declare hdeclare).trans (grows_enter hopen hbody.grows _))

theorem Entry.Elaborates.grows {scopes after : Scopes} {entry : Entry} {item : Item}
    {warnings : List Conversion} (h : entry.Elaborates scopes item after warnings) :
    scopes.Grows after globalScope := by
  cases h with
  | global h => exact h.grows
  | function h => exact h.grows

theorem Entry.AllElaborate.grows {scopes after : Scopes} {entries : List Entry} {items : List Item}
    {warnings : List Conversion} (h : AllElaborate scopes entries items after warnings) :
    scopes.Grows after globalScope := by
  induction h with
  | nil => exact .refl _ _
  | cons h _ ih => exact h.grows.trans ih

end AccumulatorC
