import AccumulatorC.Proofs.Lowering.ExpressionRegisters
import AccumulatorC.Proofs.Lowering.Strings
import AccumulatorC.Proofs.Lowering.Tracking

/-!
# Code that follows evaluation

The code of an expression follows its evaluation when a machine beside one world comes to be
beside the next one, with the value in the register that was taken for it. Calls need room on the
stack as far as the code reaches; without calls two bytes are enough.
-/

namespace AccumulatorC

open Lowering

/-- Whatever is no call in a whole is no call in its parts. -/
theorem Expr.isCallFree_of_subset {part e : Expr} (h : part.nodes ⊆ e.nodes)
    (hpart : part.isCallFree = false) : e.isCallFree = false := by
  simp only [isCallFree, List.all_eq_false] at hpart ⊢
  obtain ⟨node, hmem, hcall⟩ := hpart
  exact ⟨node, h hmem, hcall⟩

theorem Expr.argument_subset {note : Note} {function : Symbol} {arguments : List Expr}
    {argument : Expr} (h : argument ∈ arguments) :
    argument.nodes ⊆ (Expr.call note function arguments).nodes := by
  intro node hnode
  rw [Expr.nodes, List.mem_cons, Expr.mem_allNodes]
  exact .inr ⟨argument, h, hnode⟩

namespace Site

/-- What the calls in an expression rely on when so many bytes are on the stack at most: each
function takes the bytes of its parameters, and there is room between the start of the stack and
the bytes that the program may touch below it. -/
structure CanCall (site : Site) (e : Expr) (bytes : Nat) : Prop where
  arguments : ∀ note function arguments, .call note function arguments ∈ e.nodes →
    site.platform.arguments function.name = (function.parameters.map Ty.size).sum
  bytes_le : bytes ≤ site.room
  above_le : site.room + site.above ≤ site.used + addressLimit

variable {site : Site}

theorem CanCall.part {part e : Expr} {bytes less : Nat} (h : site.CanCall e bytes)
    (hpart : part.nodes ⊆ e.nodes) (hle : less ≤ bytes) : site.CanCall part less where
  arguments note function arguments hmem := h.arguments note function arguments (hpart hmem)
  bytes_le := hle.trans h.bytes_le
  above_le := h.above_le

/-- What the calls of a whole may rely on, the calls of its parts may. -/
theorem CanCall.of_whole {part e : Expr} {bytes less : Nat}
    (h : e.isCallFree = false → site.CanCall e bytes) (hpart : part.nodes ⊆ e.nodes)
    (hle : less ≤ bytes) (hcall : part.isCallFree = false) : site.CanCall part less :=
  (h (Expr.isCallFree_of_subset hpart hcall)).part hpart hle

/-- With so many bytes on the stack, a code follows the evaluation of an expression whose strings
are numbered from a number on, and leaves what a function makes of the value in a register. The
registers that are in use stay as they are. -/
def Follows (site : Site) (depth n : Nat) (e : Expr) (f : UInt16 → UInt16) (held : RegSet)
    (r : Reg) (code : List Line) : Prop :=
  ∀ (world world' : World) (m : Machine) (value : UInt16), site.Fits depth →
    (e.isCallFree = false → site.CanCall e (depth + reach code + 2)) →
    site.Mirrors depth world m → e.evaluate site n world = some (value, world') →
    ∃ m', site.Tracks depth code (fun s => held.contains s = true) world m world' m' ∧
      m'.read r = f value

/-- A code goes on from the value that was followed, without calls. -/
theorem Follows.deliver {depth n : Nat} {e whole : Expr} {f g : UInt16 → UInt16} {held : RegSet}
    {r r' : Reg} {code rest : List Line} (h : site.Follows depth n e id held r code)
    (hpart : e.nodes ⊆ whole.nodes)
    (hvalue : ∀ world world' value, whole.evaluate site n world = some (value, world') →
      ∃ given, e.evaluate site n world = some (given, world') ∧ g value = f given)
    (hrest : ∀ m, Delivers site.platform 2 rest (fun s => held.contains s = true) m r'
      (f (m.read r))) :
    site.Follows depth n whole g held r' (code ++ rest) := by
  intro world world' m value hfits hcalls hmirrors hwhole
  obtain ⟨given, hgiven, hsame⟩ := hvalue world world' value hwhole
  have hreach := reach_le_append code rest
  obtain ⟨m₁, htracks, hread⟩ := h world world' m given hfits
    (CanCall.of_whole hcalls hpart (by omega)) hmirrors hgiven
  obtain ⟨m₂, htracks', hread'⟩ :=
    Tracks.of_delivers (Nat.le_refl 2) hfits htracks.mirrors (hrest m₁)
  exact ⟨m₂, htracks.append htracks', by rw [hread', hread, hsame]; rfl⟩

/-- Bytes on the stack below the entry of the function while an expression of a scope is
lowered. -/
def height (site : Site) (scope : ScopeId) (state : LowerState) : Nat :=
  site.scopes.frames scope site.outer + state.depth

/-- Lowering an expression takes one register more, numbers its strings, and gives code that
follows its evaluation. -/
structure Lowers (site : Site) (scope : ScopeId) (e : Expr) (f : UInt16 → UInt16)
    (state : LowerState) (r : Reg) (code : List Line) (after : LowerState) : Prop where
  holds : Holds state.held r after
  depth : after.depth = state.depth
  strings : after.labels.count .string = state.labels.count .string + e.strings
  follows : site.Follows (site.height scope state) (state.labels.count .string) e f state.held r code

/-- The code of an expression follows its evaluation from every state without conflicts. -/
def LowersAlong (site : Site) (scope : ScopeId) (e : Expr) : Prop :=
  ∀ state : LowerState, state.held.ConflictFree →
    Ensures (e.lower site.scopes) state fun r code _ =>
      site.Follows (site.height scope state) (state.labels.count .string) e id state.held r code

variable {scope : ScopeId} {e : Expr}

/-- Lowering begins by moving to the place of the expression. -/
theorem LowersAlong.of_visit {location : Location} {body : Lowering Reg}
    (hlower : e.lower site.scopes = (do visit location; body))
    (h : ∀ state : LowerState, state.held.ConflictFree → Ensures body state fun r code _ =>
      site.Follows (site.height scope state) (state.labels.count .string) e id state.held r code) :
    site.LowersAlong scope e := by
  intro state hfree
  rw [hlower, ensures_bind, ensures_visit]
  exact h { state with here := location } hfree

theorem LowersAlong.lowers (h : site.LowersAlong scope e) (hwf : e.WellFormed site.scopes scope)
    {state : LowerState} (hfree : state.held.ConflictFree) :
    Ensures (e.lower site.scopes) state fun r code after =>
      (e.type.isVoid = false → r.size = e.type.size) ∧ site.Lowers scope e id state r code after := by
  refine (((hwf.allocates state hfree).and (hwf.addsStrings state)).and (h state hfree)).mono ?_
  rintro r code after ⟨⟨⟨hholds, hsize, hdepth⟩, hstrings⟩, hfollows⟩
  exact ⟨hsize, hholds, hdepth, hstrings, hfollows⟩

/-- An expression whose value is brought to a size. -/
theorem LowersAlong.coerce (h : site.LowersAlong scope e) (hwf : e.WellFormed site.scopes scope)
    {size : Nat} (hsize : size = 1 ∨ size = 2) {state : LowerState}
    (hfree : state.held.ConflictFree) :
    Ensures (e.lower site.scopes) state fun r code middle =>
      Ensures (Lowering.coerce r size) middle fun r' code' after =>
        r'.size = size ∧ site.Lowers scope e (cut size) state r' (code ++ code') after := by
  refine (h.lowers hwf hfree).mono ?_
  rintro r code middle ⟨-, hlowers⟩
  refine (((coerce_holds hlowers.holds hsize).and (coerce_delivers hlowers.holds hsize)).and
    (Marks.coerce r size middle)).mono ?_
  rintro r' code' after ⟨⟨⟨hholds, hrsize, hdepth⟩, hdelivers⟩, -, hlabels⟩
  refine ⟨hrsize, hholds, hdepth.trans hlowers.depth, hlabels ▸ hlowers.strings, ?_⟩
  exact hlowers.follows.deliver (List.Subset.refl _) (fun _ _ value hvalue => ⟨value, hvalue, rfl⟩)
    fun m => (hdelivers site.platform m).mono (Nat.zero_le 2) fun _ hs => hs

end Site

end AccumulatorC
