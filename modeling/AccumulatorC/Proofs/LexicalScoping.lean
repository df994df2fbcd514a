import AccumulatorC.Lowering.Expression
import AccumulatorC.Proofs.Lowering.Ensures
import AccumulatorC.Proofs.Machine.LabelTexts
import AccumulatorC.Proofs.Program.Binding
import AccumulatorC.Proofs.Program.Compiling
import AccumulatorC.Proofs.Program.Nodes
import AccumulatorC.Proofs.Program.Parser.Acceptance
import AccumulatorC.Proofs.Program.Parser.Soundness
import AccumulatorC.Proofs.Program.Parser.Unit
import AccumulatorC.Proofs.Program.Printed

/-!
# Lexical scoping

In a program every name means what the declarations around it say: the latest one before it in the
innermost scope that has declared the name by then. So the scope of a local lies around every use of
it, and the local is found on the stack from there. Only when the frames between them do not fit into
the address space together there is no distance to it.
-/

namespace AccumulatorC

/-- The symbol that an expression itself names or calls. -/
def Expr.used? : Expr → Option Symbol
  | .name _ symbol => some symbol
  | .call _ function _ => some function
  | _ => none

/-- Before the first entry of a source. -/
def Surroundings.outermost : Surroundings := ⟨⟨globalScope, []⟩, []⟩

theorem Expr.WellFormed.visible {scopes : Scopes} {scope : ScopeId} {e : Expr} {symbol : Symbol}
    (h : e.WellFormed scopes scope) (hused : e.used? = some symbol) :
    scopes.Visible scope symbol := by
  cases h with
  | name hscope hconstant htype hfunction hvisible =>
      cases hused
      exact hvisible
  | call hscope hconstant htype hvisible haccepts harguments =>
      cases hused
      exact hvisible
  | _ => cases hused

/-- A local is never at a label, as far as it is found. -/
theorem Scopes.address_framed {scopes : Scopes} {scope : ScopeId} {symbol : Symbol}
    (hvisible : scopes.Visible scope symbol) {offset : Nat}
    (hstorage : symbol.storage = .framed offset) (state : LowerState) :
    Lowering.Ensures (scopes.address symbol scope) state fun address _ _ =>
      ∃ bytes, address = .stack bytes := by
  simp only [address, Lowering.ensures_bind, Lowering.ensures_lift]
  intro distance hdistance
  cases distance with
  | none =>
      rcases stackOffset_eq_none hvisible hdistance with h | h <;> cases hstorage.symm.trans h
  | some distance => simp

/-- The names of a program that is read are bound by the declarations around them. The scope of what
is used lies around every use, and a local has a distance from the stack pointer there, and no label,
unless the frames up to its own are too large together. -/
theorem Program.names_lexical {tokens : List (Located Token)} {parsed : Parsed}
    (h : Program.ofTokens tokens = .ok parsed) :
    (∃ entries, Entry.AllSpelling entries (tokens.map (·.value)) ∧
      Entry.AllBind parsed.program.unplaced.scopes .outermost entries parsed.program.unplaced.items) ∧
    ∀ e ∈ parsed.program.nodes, ∀ symbol, e.used? = some symbol →
      symbol.scope ∈ parsed.program.scopes.chain e.note.scope ∧
      ∀ offset, symbol.storage = .framed offset →
        (parsed.program.scopes.stackOffset symbol e.note.scope =
          if parsed.program.scopes.frames e.note.scope symbol.scope +
              parsed.program.scopes.frameOf symbol.scope < addressLimit then
            .ok (some (parsed.program.scopes.frames e.note.scope symbol.scope +
              parsed.program.scopes.frameOf symbol.scope - offset - symbol.type.size))
          else .error .overflow) ∧
        ∀ state, Lowering.Ensures (parsed.program.scopes.address symbol e.note.scope) state
          fun address _ _ => ∃ bytes, address = .stack bytes := by
  obtain ⟨entries, hspelling, hitems, -⟩ := ofTokens_source h
  have hwf := Program.ofTokens_wellFormed h
  have houtermost : Scopes.initial.Surround Surroundings.outermost.layers := .outermost rfl
  have hbinds := hitems.binds (.refl _) houtermost rfl
  refine ⟨⟨entries, hspelling, hbinds⟩, fun e he symbol hused => ?_⟩
  have hvisible := (hwf.node he).visible hused
  refine ⟨hvisible.1, fun offset hstorage => ?_⟩
  exact ⟨Scopes.stackOffset_framed hwf.scopes hvisible hstorage,
    Scopes.address_framed hvisible hstorage⟩

/-- A text in which three variables have one name. -/
def shadowText : String :=
  "char n; char main(char n) \x7b \x7b char m = n; int n = m; n; \x7d return n; \x7d"

/-- Its tokens. -/
def shadowTokens : Except (List (Located LexError)) (List (Located Token)) :=
  FileTree.bare.textTokens "<input>" shadowText.toUTF8 ⟨"."⟩

/-- Whether an expression uses the first local of a scope further out, and the frames are not too
large. -/
def Scopes.reachesOut (scopes : Scopes) (e : Expr) : Bool :=
  e.used?.any fun symbol => decide (symbol.storage = .framed 0 ∧ symbol.scope ≠ e.note.scope ∧
    scopes.frames e.note.scope symbol.scope + scopes.frameOf symbol.scope < addressLimit)

theorem shadow_lexical : ∃ tokens parsed, shadowTokens = .ok tokens ∧
    Program.ofTokens tokens = .ok parsed ∧
    (∃ entries, Entry.AllSpelling entries (tokens.map (·.value)) ∧
      Entry.AllBind parsed.program.unplaced.scopes .outermost entries parsed.program.unplaced.items) ∧
    ∃ e ∈ parsed.program.nodes, ∃ symbol distance, e.used? = some symbol ∧
      symbol.scope ≠ e.note.scope ∧ symbol.scope ∈ parsed.program.scopes.chain e.note.scope ∧
      parsed.program.scopes.stackOffset symbol e.note.scope = .ok (some distance) := by
  have hany : (shadowTokens.toOption.any fun tokens => (Program.ofTokens tokens).toOption.any
      fun parsed => parsed.program.nodes.any parsed.program.scopes.reachesOut) = true := by
    decide +kernel
  obtain ⟨tokens, htokens, hany⟩ := exists_eq_ok_of_any hany
  obtain ⟨parsed, hparsed, hany⟩ := exists_eq_ok_of_any hany
  obtain ⟨e, he, hreaches⟩ := List.any_eq_true.mp hany
  obtain ⟨symbol, hused, hsymbol⟩ := Option.any_eq_true _ _ |>.mp hreaches
  obtain ⟨hstorage, hscope, hfits⟩ := of_decide_eq_true hsymbol
  obtain ⟨hbinds, hlocals⟩ := Program.names_lexical hparsed
  obtain ⟨hchain, hframed⟩ := hlocals e he symbol hused
  obtain ⟨hoffset, -⟩ := hframed 0 hstorage
  rw [if_pos hfits] at hoffset
  exact ⟨tokens, parsed, htokens, hparsed, hbinds, e, he, symbol, _, hused, hscope, hchain, hoffset⟩

/-! ## A local far away -/

section Burrow

/-- The declaration of an integer without an initial value. -/
def plainInteger (name : String) : Variable := ⟨false, .int, name, none⟩

/-- So many blocks inside each other, with variables of some names each, around `x;`. -/
def burrow (names : List String) : Nat → Phrase
  | 0 => .expression (.name "x")
  | depth + 1 =>
      .block (names.map (fun name => .declaration (plainInteger name)) ++ [burrow names depth])

variable {names : List String} {scopes : Scopes} {around : Surroundings} {x : Symbol}
  {parent : ScopeId} {bytes : Nat} (result : Option Ty)

theorem plainInteger_spelling (name : String) :
    (plainInteger name).Spelling (plainInteger name).write :=
  Variable.write_spelling .int

theorem burrow_spelling (names : List String) (depth : Nat) :
    (burrow names depth).Spelling (burrow names depth).write := by
  induction depth with
  | zero => exact .expression (Term.writeAlone_spelling _)
  | succ depth ih =>
      refine .block (Phrase.writeAll_spelling fun phrase hphrase => ?_)
      rcases List.mem_append.mp hphrase with hphrase | hphrase
      · obtain ⟨name, -, rfl⟩ := List.mem_map.mp hphrase
        exact .declaration (plainInteger_spelling name)
      · exact List.mem_singleton.mp hphrase ▸ ih

/-- Integers of different names can be declared one after the other. -/
theorem integers_elaborate (hscopes : scopes.Surround around.layers)
    (hx : around.meaning "x" = some x)
    (htable : scopes.list[around.scope]? = some ⟨some parent, around.inner.symbols, bytes⟩)
    (hnodup : names.Nodup) (hother : "x" ∉ names)
    (hfresh : ∀ symbol ∈ around.inner.symbols, symbol.name ∉ names)
    (hfits : bytes + 2 * names.length < addressLimit) :
    ∃ statements after, ∃ around' : Surroundings, Phrase.AllElaborate ⟨scopes, around.scope, result⟩
        (names.map fun name => .declaration (plainInteger name)) statements
        ⟨after, around.scope, result⟩ [] ∧
      after.Surround around'.layers ∧ around'.scope = around.scope ∧ around'.meaning "x" = some x ∧
      after.list[around.scope]? =
        some ⟨some parent, around'.inner.symbols, bytes + 2 * names.length⟩ ∧
      after.list.length = scopes.list.length := by
  induction names generalizing scopes around bytes with
  | nil => exact ⟨[], scopes, around, .nil, hscopes, rfl, hx, htable, rfl⟩
  | cons name rest ih =>
      obtain ⟨hname, hrest⟩ := List.nodup_cons.mp hnodup
      obtain ⟨hxname, hxrest⟩ := List.ne_and_not_mem_of_not_mem_cons hother
      rw [List.length_cons] at hfits
      have hsize : Ty.int.size = 2 := rfl
      have hroom : bytes + Ty.int.size < addressLimit := by omega
      have hothers : bytes + Ty.int.size + 2 * rest.length < addressLimit := by omega
      obtain ⟨symbol, rfl, hdeclare⟩ := Scopes.declare_local htable rfl
        (fun earlier hearlier heq => hfresh earlier hearlier (heq ▸ List.mem_cons_self)) hroom
      have hfirst : (plainInteger symbol.name).Elaborates ⟨scopes, around.scope, result⟩
          ⟨symbol, none⟩ ⟨_, around.scope, result⟩ [] := .plain (fun _ => rfl) hdeclare
      obtain ⟨-, hmiddle, -⟩ := hfirst.binds ⟨hscopes, rfl⟩
      have hdeclared : (scopes.set around.scope ⟨some parent, symbol :: around.inner.symbols,
          bytes + Ty.int.size⟩).list[around.scope]? =
          some ⟨some parent, symbol :: around.inner.symbols, bytes + Ty.int.size⟩ := by
        rw [Scopes.list_set, if_pos rfl, htable]
        rfl
      obtain ⟨statements, after, around', hlocals, hafter, hscope, hx', htable', hlength⟩ := ih hmiddle
        ((Surroundings.meaning_declare (Ne.symm hxname)).trans hx)
        hdeclared hrest hxrest
        (List.forall_mem_cons.mpr ⟨hname, fun earlier hearlier hmem =>
          hfresh earlier hearlier (List.mem_cons_of_mem _ hmem)⟩) hothers
      refine ⟨_, after, around', .cons (.declaration hfirst) hlocals, hafter, hscope, hx', ?_, ?_⟩
      · rw [List.length_cons, Nat.mul_succ, Nat.add_comm (2 * rest.length), ← Nat.add_assoc]
        exact htable'
      · rw [hlength]
        exact List.length_set

/-- Each block lies in the one around it, with a frame for its own variables. -/
theorem burrow_elaborates (hnodup : names.Nodup) (hother : "x" ∉ names)
    (hfits : 2 * names.length < addressLimit) (hint : x.type = .int) (depth : Nat)
    (hscopes : scopes.Surround around.layers) (hx : around.meaning "x" = some x)
    (hlength : scopes.list.length = around.scope + 1) :
    ∃ (statement : Statement) (after : Scopes),
      (burrow names depth).Elaborates ⟨scopes, around.scope, result⟩ statement
          ⟨after, around.scope, result⟩ [] ∧
      after.list[around.scope]? = scopes.list[around.scope]? ∧
      (∃ e ∈ statement.nodes, e.used? = some x ∧ e.note.scope = around.scope + depth) ∧
      ∀ i < depth, ∃ table, after.list[around.scope + i + 1]? = some table ∧
        table.parent = some (around.scope + i) ∧ table.frame = 2 * names.length := by
  induction depth generalizing scopes around with
  | zero =>
      have hmeaning : Parser.Setting.meaning ⟨scopes, around.scope, result⟩ "x" = some x := by
        rw [Parser.Setting.At.meaning_eq ⟨hscopes, rfl⟩, hx]
      have hname : Term.Elaborates _ around.scope _ _ _ := .name hmeaning (by rw [hint]; rfl)
      refine ⟨_, scopes, .expression hname fun _ => by rw [Expr.type, Expr.note, hint]; rfl, rfl,
        ⟨_, List.mem_singleton.mpr rfl, rfl, rfl⟩, ?_⟩
      intro i hi
      cases hi
  | succ depth ih =>
      -- The scope of the block gets the next number, and its frame is empty at first.
      obtain ⟨_, hknown, -⟩ := hscopes.known
      have henter := Scopes.enter_of_known hknown
      have hempty : (scopes.list ++ [⟨some around.scope, [], 0⟩])[scopes.list.length]? =
          some ⟨some around.scope, [], 0⟩ := by simp
      have hentered : Scopes.Surround _ (around.enter scopes.list.length).layers :=
        hscopes.enter henter
      obtain ⟨statements, inside, around', hlocals, hinside, hscope, hx', htable, hcount⟩ :=
        integers_elaborate result hentered hx hempty hnodup hother (List.forall_mem_nil _)
          (by rwa [Nat.zero_add])
      have hplace : around'.scope = around.scope + 1 := hscope.trans hlength
      obtain ⟨statement, after, hinner, hsame, ⟨e, he, hused, hnote⟩, htables⟩ := ih hinside hx'
        (by rw [hcount, hscope]; simp; rfl)
      -- The blocks inside leave the scope of this one as its declarations have made it.
      rw [hscope, htable, Nat.zero_add, ← hscope, hplace] at hsame
      rw [hscope] at hinner
      rw [hplace] at hnote htables
      have hbody := hlocals.append (.cons hinner .nil)
      have hgrows := Scopes.grows_enter henter hbody.grows scopes.list.length
      have hblock : (burrow names (depth + 1)).Elaborates ⟨scopes, around.scope, result⟩
          (.block scopes.list.length (statements ++ [statement]) nowhere)
          ⟨after, around.scope, result⟩ [] :=
        @Phrase.Elaborates.block ⟨scopes, around.scope, result⟩ ⟨after, scopes.list.length, result⟩
          _ _ _ _ _ henter hbody
      refine ⟨_, after, hblock, hgrows.other around.scope (by omega) (by omega),
        ⟨e, ?_, hused, by rw [hnote, Nat.add_right_comm, Nat.add_assoc]⟩, ?_⟩
      · rw [Statement.nodes, Statement.mem_allNodes]
        exact ⟨statement, List.mem_append_right _ (List.mem_singleton.mpr rfl), he⟩
      · rintro (_ | i) hi
        · exact ⟨_, hsame, rfl, rfl⟩
        · have hnext := htables i (Nat.lt_of_succ_lt_succ hi)
          rw [Nat.add_right_comm around.scope 1 i] at hnext
          exact hnext

end Burrow

/-- The names of 512 variables. -/
def burrowNames : List String := (List.range 512).map fun n => "y" ++ toString n

/-- A function with a local `x` and 64 blocks inside each other that hold 1024 bytes each. -/
def burrowRoutine : Routine :=
  ⟨.void, mainName, [], [.declaration (plainInteger "x"), burrow burrowNames 64]⟩

/-- Its tokens. -/
def burrowTokens : List (Located Token) := unplacedTokens (Entry.writeAll [.function burrowRoutine])

theorem toList_burrowName (n : Nat) : ("y" ++ toString n).toList = 'y' :: digits n := by
  rw [String.toList_append]
  rfl

theorem burrowNames_nodup : burrowNames.Nodup := by
  refine List.Nodup.map (fun n m h => ?_) List.nodup_range
  have hlist := congrArg String.toList h
  rw [toList_burrowName, toList_burrowName] at hlist
  exact digits_injective (List.cons.inj hlist).2

theorem x_not_mem_burrowNames : "x" ∉ burrowNames := by
  intro h
  obtain ⟨n, -, hname⟩ := List.mem_map.mp h
  have hlist := congrArg String.toList hname
  rw [toList_burrowName] at hlist
  cases hlist

theorem burrowRoutine_spelling : burrowRoutine.Spelling burrowRoutine.write := by
  refine Routine.write_spelling .void (List.forall_mem_nil _) (Phrase.writeAll_spelling ?_)
  exact List.forall_mem_cons.mpr ⟨.declaration (plainInteger_spelling "x"),
    List.forall_mem_singleton.mpr (burrow_spelling burrowNames 64)⟩

/-- The function's symbol. -/
def burrowMain : Symbol := ⟨mainName, nowhere, .function .void [], .labelled, globalScope⟩

/-- The symbol of its local. -/
def burrowX : Symbol := ⟨"x", nowhere, .int, .framed 0, 2⟩

/-- The scopes in front of the blocks. -/
def burrowScopes : Scopes :=
  ⟨[⟨none, [burrowMain], 0⟩, ⟨some globalScope, [], returnAddressSize⟩, ⟨some 1, [burrowX], 2⟩]⟩

/-- The surroundings there. -/
def burrowEntrance : Surroundings := ⟨⟨2, [burrowX]⟩, [⟨1, []⟩, ⟨globalScope, [burrowMain]⟩]⟩

theorem burrowScopes_surround : burrowScopes.Surround burrowEntrance.layers :=
  .inside rfl (by decide) (.inside rfl (by decide) (.outermost rfl))

/-- The function elaborates, its local is used inside all of its blocks, and the frames between
have more bytes than addresses. -/
theorem burrowRoutine_elaborates : ∃ (f : Function) (after : Scopes),
    burrowRoutine.Elaborates .initial f after [] ∧
      after.list[globalScope]? = some ⟨none, [burrowMain], 0⟩ ∧
      (∃ e ∈ f.nodes, e.used? = some burrowX ∧ e.note.scope = 66) ∧
      addressLimit ≤ after.frames 66 2 := by
  have hlength : burrowNames.length = 512 := by rw [burrowNames, List.length_map, List.length_range]
  have hx : burrowEntrance.meaning "x" = some burrowX := rfl
  obtain ⟨statement, after, hblocks, -, ⟨e, he, hused, hnote⟩, htables⟩ :=
    burrow_elaborates (some .void) burrowNames_nodup x_not_mem_burrowNames
      (by rw [hlength]; decide) rfl 64 burrowScopes_surround hx rfl
  have hdeclaration : (plainInteger "x").Elaborates
      ⟨⟨[⟨none, [burrowMain], 0⟩, ⟨some globalScope, [], returnAddressSize⟩, ⟨some 1, [], 0⟩]⟩, 2,
        some .void⟩ ⟨burrowX, none⟩ ⟨burrowScopes, 2, some .void⟩ [] := .plain (fun _ => rfl) rfl
  have hbody := Phrase.AllElaborate.cons (.declaration hdeclaration) (.cons hblocks .nil)
  refine ⟨⟨burrowMain, 1, 2, [.declaration ⟨burrowX, none⟩, statement], nowhere⟩, after,
    .mk rfl .nil rfl rfl rfl hbody, ?_, ⟨e, ?_, hused, hnote⟩, ?_⟩
  · exact hblocks.grows.other globalScope (by decide) (by decide)
  · exact Statement.mem_allNodes.mpr ⟨statement, by simp, he⟩
  · rw [hlength] at htables
    exact Nat.le_of_eq (Scopes.frames_nested htables).symm

/-- The local is used where the frames up to its own take 65536 bytes, and has no distance there. -/
theorem burrow_too_deep : ∃ parsed, Program.ofTokens burrowTokens = .ok parsed ∧
    ∃ e ∈ parsed.program.nodes, ∃ symbol offset, e.used? = some symbol ∧
      symbol.storage = .framed offset ∧
      parsed.program.scopes.stackOffset symbol e.note.scope = .error .overflow := by
  obtain ⟨f, after, helaborates, hglobal, ⟨e, he, hused, hnote⟩, hlarge⟩ := burrowRoutine_elaborates
  have hvalues : burrowTokens.map (·.value) = Entry.writeAll [.function burrowRoutine] :=
    Parser.map_value_unplacedTokens _
  have hspelling : Entry.AllSpelling [.function burrowRoutine] (burrowTokens.map (·.value)) :=
    hvalues ▸ .cons (.function burrowRoutine_spelling) .nil
  have hmain : after.HasMain := by
    refine ⟨burrowMain, ?_, rfl⟩
    have hsurround : after.Surround (Surroundings.mk ⟨globalScope, [burrowMain]⟩ []).layers :=
      .outermost hglobal
    have hlookup : after.lookup? globalScope mainName = some burrowMain :=
      hsurround.lookup?_eq mainName
    rw [Scopes.lookup, Scopes.get_eq_ok.mpr hglobal, hlookup]
    rfl
  obtain ⟨parsed, hparsed, hprogram, -⟩ :=
    @Program.ofTokens_of_source burrowTokens _ ⟨[.function f], after⟩ _ hspelling
      (.cons (.function helaborates) .nil) hmain
  -- The tokens have no places, so neither does what is read from them.
  have hnowhere : burrowTokens.map Located.unplaced = burrowTokens := by
    rw [burrowTokens, unplacedTokens, List.map_map]
    rfl
  have hsame := Program.ofTokens_unplaced burrowTokens
  rw [hnowhere, hparsed] at hsame
  have hunplaced : parsed.program = ⟨[.function f], after⟩ :=
    (congrArg Parsed.program (Except.ok.inj hsame)).trans hprogram
  have hwf := Program.ofTokens_wellFormed hparsed
  have hnode : e ∈ parsed.program.nodes := by
    rw [hunplaced]
    exact List.mem_flatMap.mpr ⟨.function f, List.mem_singleton.mpr rfl, he⟩
  have hvisible := (hwf.node hnode).visible hused
  refine ⟨parsed, hparsed, e, hnode, burrowX, 0, hused, rfl, ?_⟩
  rw [Scopes.stackOffset_framed hwf.scopes hvisible rfl, hunplaced, hnote]
  exact if_neg (Nat.not_lt_of_le (Nat.le_trans hlarge (Nat.le_add_right _ _)))

end AccumulatorC
