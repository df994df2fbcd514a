import AccumulatorC.Proofs.Files.Beside
import AccumulatorC.Proofs.IncludedOnce
import AccumulatorC.Proofs.ReportedPlaces

/-!
# Files with faults

A file is scanned with all that it includes exactly if none of the files that it reaches has a fault.
Then every one of them has been opened once, and its tokens, but for its directives, stand among the
others in their order, in the place of the first directive that reached it.
-/

namespace AccumulatorC

/-! ## Files that are reached -/

/-- A path leads to a file that can be read and is made of the given tokens. -/
def FileTree.Cuts (tree : FileTree) (path : Path) (values : List Token) : Prop :=
  ∃ place bytes, tree.resolve path = .ok (.file place) ∧ tree.content? place = some bytes ∧
    .denied .read ∉ tree.entriesAt (tree.kept place) ∧ readValues bytes = .ok values

/-- Every directive is followed by a string. -/
def Followed (values : List Token) : Prop :=
  ∀ back, .inclusion :: back <:+ values → ∃ name, [.string name] <+: back

/-- The paths that directives lead to from a file, each one seen from the directory of the file that
the directive stands in, where this file is read under one of the paths that are allowed. -/
inductive FileTree.Reaches (tree : FileTree) (allowed : Path → Prop) (root : Path) : Path → Prop
  | root : Reaches tree allowed root root
  | directive {path : Path} {values : List Token} {name : List UInt8}
      (h : Reaches tree allowed root path) (hallowed : allowed path)
      (hcuts : tree.Cuts path values) (hname : [.inclusion, .string name] <:+: values) :
      Reaches tree allowed root (path.directory.join (.ofBytes name))

/-- A path leads to a file that has no fault. -/
def FileTree.Faultless (tree : FileTree) (path : Path) : Prop :=
  ∃ values, tree.Cuts path values ∧ Followed values

/-- The tokens that belong to no directive. -/
def plainTokens : List (Located Token) → List (Located Token)
  | [] => []
  | [token] => if token.value = .inclusion then [] else [token]
  | token :: next :: rest =>
      if token.value = .inclusion then plainTokens rest else token :: plainTokens (next :: rest)

section Directives

variable {token next : Token} {rest : List Token}

theorem Followed.tail (h : Followed (token :: rest)) : Followed rest := fun back hback =>
  h back (hback.trans (List.suffix_cons _ _))

theorem Followed.cons (hvalue : token ≠ .inclusion) (h : Followed rest) :
    Followed (token :: rest) := by
  intro back hback
  rcases List.suffix_cons_iff.mp hback with heq | hrest
  · exact absurd (List.cons.inj heq).1.symm hvalue
  · exact h back hrest

theorem Followed.directive {name : List UInt8} (h : Followed rest) :
    Followed (.inclusion :: .string name :: rest) := by
  intro back hback
  rcases List.suffix_cons_iff.mp hback with heq | hrest
  · obtain ⟨-, rfl⟩ := List.cons.inj heq
    exact ⟨name, rest, rfl⟩
  · have hstring : Token.string name ≠ .inclusion := nofun
    exact h.cons hstring back hrest

theorem Followed.head (h : Followed (.inclusion :: rest)) : ∃ name, [.string name] <+: rest :=
  h rest (List.suffix_refl _)

/-- A directive of tokens that begin with another token is one of the rest. -/
theorem directive_infix_cons {name : List UInt8} (hvalue : token ≠ .inclusion) :
    [.inclusion, .string name] <:+: token :: rest ↔ [.inclusion, .string name] <:+: rest := by
  rw [List.infix_cons_iff, List.cons_prefix_cons]
  exact or_iff_right fun h => hvalue h.1.symm

theorem directive_infix_directive {name other : List UInt8} :
    [.inclusion, .string name] <:+: .inclusion :: .string other :: rest ↔
      name = other ∨ [.inclusion, .string name] <:+: rest := by
  have hstring : Token.string other ≠ .inclusion := nofun
  rw [List.infix_cons_iff, directive_infix_cons hstring]
  simp

theorem plainTokens_cons {token : Located Token} (hvalue : token.value ≠ .inclusion)
    (rest : List (Located Token)) : plainTokens (token :: rest) = token :: plainTokens rest := by
  cases rest with
  | nil => simp only [plainTokens, if_neg hvalue]
  | cons next rest => rw [plainTokens, if_neg hvalue]

end Directives

/-! ## What an expansion has asked for -/

/-- A reading that fails says why. -/
theorem Reading.errors_ne_nil {reading : Reading} {errors : List (Located LexError)}
    (h : reading.tokens = .error errors) : errors ≠ [] := by
  rw [tokens] at h
  split at h
  next => cases h
  next hsome => exact fun heq => hsome (Except.error.inj h ▸ heq)

/-- An expansion gives tokens exactly if it has found no errors. -/
theorem Expansion.exists_result {expansion : Expansion} :
    (∃ tokens, expansion.result = .ok tokens) ↔ expansion.errors = [] := by
  rw [result]
  split
  next h => simpa using h
  next h => simpa using h

namespace FileTree

variable {tree : FileTree} {path : Path} {bytes : ByteArray} {tokens : List (Located Token)}

theorem cuts_of_read (hread : tree.read path = .ok bytes)
    (htokens : (Reading.ofBytes path.text bytes).tokens = .ok tokens) :
    tree.Cuts path (tokens.map (·.value)) := by
  obtain ⟨place, htarget, hcontent⟩ := target_of_read hread
  refine ⟨place, bytes, resolve_of_target htarget, hcontent, allowed_of_read htarget hread, ?_⟩
  rw [← Reading.values_ofBytes path.text, htokens]
  rfl

theorem Cuts.unique {values values' : List Token} (h : tree.Cuts path values)
    (h' : tree.Cuts path values') : values = values' := by
  obtain ⟨place, bytes, hresolve, hcontent, -, hvalues⟩ := h
  obtain ⟨place', bytes', hresolve', hcontent', -, hvalues'⟩ := h'
  cases hresolve.symm.trans hresolve'
  cases hcontent.symm.trans hcontent'
  exact Except.ok.inj (hvalues.symm.trans hvalues')

/-- The same file under another path. -/
theorem Cuts.of_resolve {path' : Path} {place : Place} {values : List Token}
    (h : tree.Cuts path values) (hresolve : tree.resolve path = .ok (.file place))
    (hresolve' : tree.resolve path' = .ok (.file place)) : tree.Cuts path' values := by
  obtain ⟨found, bytes, hfound, hrest⟩ := h
  cases hfound.symm.trans hresolve
  exact ⟨place, bytes, hresolve', hrest⟩

end FileTree

section Asking

variable {tree : FileTree} {allowed : Path → Prop} {root : Path} {stretch : Stretch}
  {state after : Inclusions} {expansion : Expansion} {visits : List Visit}

/-- What has been asked for is what has been opened. -/
theorem Expands.seen_eq (h : Expands tree stretch state expansion after visits)
    (hstate : state.seen = state.opened.map tree.identify) :
    after.seen = after.opened.map tree.identify := by
  have hask : ∀ {path : Path} {state : Inclusions}, state.seen = state.opened.map tree.identify →
      (state.ask tree path).seen = (state.ask tree path).opened.map tree.identify :=
    fun hstate => congrArg (List.cons _) hstate
  induction h with
  | repeated | nil | bare => exact hstate
  | refused | faulty => exact hask hstate
  | opened _ _ _ _ _ ih => exact ih (hask hstate)
  | token _ _ ih | pathless _ _ _ ih => exact ih hstate
  | inclusion _ _ _ _ ihfile ihrest => exact ihrest (ihfile hstate)

/-- All that a stretch asks for is reached from a file. -/
def Stretch.ReachedFrom (tree : FileTree) (allowed : Path → Prop) (root : Path) : Stretch → Prop
  | .file path _ => tree.Reaches allowed root path
  | .tokens _ directory _ own => ∀ name, [.inclusion, .string name] <:+: own.map (·.value) →
      tree.Reaches allowed root (directory.join (.ofBytes name))

namespace Stretch.ReachedFrom

variable {owner : Option Place} {directory path : Path} {before : Nat} {token next : Located Token}
  {rest : List (Located Token)}

theorem tail (h : (tokens owner directory before (token :: rest)).ReachedFrom tree allowed root)
    (later : Nat) : (tokens owner directory later rest).ReachedFrom tree allowed root := fun name hname =>
  h name (List.infix_cons hname)

theorem contents {location : Location} (h : (file path location).ReachedFrom tree allowed root)
    (hallowed : allowed path) {bytes : ByteArray} {own : List (Located Token)}
    (hread : tree.read path = .ok bytes)
    (htokens : (Reading.ofBytes path.text bytes).tokens = .ok own) :
    (tokens owner path.directory before own).ReachedFrom tree allowed root := fun _ hname =>
  .directive h hallowed (FileTree.cuts_of_read hread htokens) hname

theorem included {bytes : List UInt8} (hvalue : token.value = .inclusion)
    (hnext : next.value = .string bytes)
    (h : (tokens owner directory before (token :: next :: rest)).ReachedFrom tree allowed root) :
    (file (directory.join (.ofBytes bytes)) token.location).ReachedFrom tree allowed root := by
  refine h bytes ?_
  rw [List.map_cons, List.map_cons, hvalue, hnext]
  exact (directive_infix_directive).mpr (.inl rfl)

end Stretch.ReachedFrom

/-- Whatever an expansion opens can be reached through directives. -/
theorem Expands.reached (h : Expands tree stretch state expansion after visits)
    (hallowed : ∀ path ∈ after.opened, allowed path)
    (hreached : stretch.ReachedFrom tree allowed root) :
    ∀ path ∈ after.opened, path ∈ state.opened ∨ tree.Reaches allowed root path := by
  have hask : ∀ {path : Path} {state : Inclusions}, tree.Reaches allowed root path →
      ∀ other ∈ (state.ask tree path).opened,
        other ∈ state.opened ∨ tree.Reaches allowed root other := by
    intro path state hpath other hmem
    rcases List.mem_cons.mp hmem with rfl | hmem
    · exact .inr hpath
    · exact .inl hmem
  induction h with
  | repeated | nil | bare => exact fun path hmem => .inl hmem
  | refused | faulty => exact hask hreached
  | @opened path _ _ _ _ _ _ _ _ _ _ hread htokens hrest ih =>
      have hpath := hallowed path (hrest.opened_subset List.mem_cons_self)
      intro other hmem
      exact (ih hallowed (hreached.contents hpath hread htokens) other hmem).elim
        (hask hreached other) .inr
  | token _ _ ih => exact ih hallowed (hreached.tail _)
  | pathless _ _ _ ih => exact ih hallowed ((hreached.tail 0).tail _)
  | inclusion hvalue hnext _ hrest ihfile ihrest =>
      intro path hmem
      rcases ihrest hallowed ((hreached.tail 0).tail _) path hmem with hmem | hpath
      · exact ihfile (fun other hother => hallowed other (hrest.opened_subset hother))
          (hreached.included hvalue hnext) path hmem
      · exact .inr hpath

/-- Every directive of a stretch is followed by a string. -/
def Stretch.IsFollowed : Stretch → Prop
  | .file _ _ => True
  | .tokens _ _ _ own => Followed (own.map (·.value))

/-- Without faults there are no errors. -/
theorem Expands.errors_eq_nil (h : Expands tree stretch state expansion after visits)
    (hfaultless : ∀ path, tree.Reaches allowed root path → tree.Faultless path)
    (hallowed : ∀ path ∈ after.opened, allowed path)
    (hshort : ∀ path ∈ after.opened, path.text.utf8ByteSize < FileTree.pathLimit)
    (hreached : stretch.ReachedFrom tree allowed root) (hfollowed : stretch.IsFollowed) :
    expansion.errors = [] := by
  induction h with
  | repeated | nil => rfl
  | @refused path _ state cause _ hread =>
      obtain ⟨values, ⟨place, bytes, hresolve, hcontent, hreadable, -⟩, -⟩ :=
        hfaultless path hreached
      have hok := FileTree.read_of_resolve hresolve hcontent hreadable
        (hshort path List.mem_cons_self)
      cases hread.symm.trans hok
  | @faulty path _ state bytes errors _ hread herrors =>
      obtain ⟨values, ⟨place, content, hresolve, hcontent, -, hvalues⟩, -⟩ :=
        hfaultless path hreached
      obtain ⟨found, htarget, hbytes⟩ := FileTree.target_of_read hread
      cases hresolve.symm.trans (FileTree.resolve_of_target htarget)
      cases hcontent.symm.trans hbytes
      rw [← Reading.values_ofBytes path.text, herrors] at hvalues
      cases hvalues
  | @opened path _ _ _ _ _ _ _ _ _ _ hread htokens hrest ih =>
      obtain ⟨values, hcuts, hvalues⟩ := hfaultless path hreached
      cases hcuts.unique (FileTree.cuts_of_read hread htokens)
      have hpath := hallowed path (hrest.opened_subset List.mem_cons_self)
      exact ih hallowed hshort (hreached.contents hpath hread htokens) hvalues
  | token _ _ ih => exact ih hallowed hshort (hreached.tail _) (Followed.tail hfollowed)
  | bare hvalue =>
      rw [Stretch.IsFollowed, List.map_singleton, hvalue] at hfollowed
      obtain ⟨name, hname⟩ := hfollowed.head
      simp at hname
  | pathless hvalue hnext =>
      rw [Stretch.IsFollowed, List.map_cons, List.map_cons, hvalue] at hfollowed
      obtain ⟨name, hname⟩ := hfollowed.head
      exact absurd (List.cons_prefix_cons.mp hname).1.symm (hnext name)
  | inclusion hvalue hnext _ hrest ihfile ihrest =>
      have hfile := ihfile (fun path hmem => hallowed path (hrest.opened_subset hmem))
        (fun path hmem => hshort path (hrest.opened_subset hmem))
        (hreached.included hvalue hnext) trivial
      have hlater := ihrest hallowed hshort ((hreached.tail 0).tail _)
        (Followed.tail (Followed.tail hfollowed))
      exact List.append_eq_nil_iff.mpr ⟨hfile, hlater⟩

end Asking

/-! ## What an expansion without errors has found -/

/-- A path leads to a file without faults, and all that the file asks for has been asked for. -/
structure FileTree.Settled (tree : FileTree) (seen : List FileTree.Identity) (path : Path)
    (place : Place) (values : List Token) : Prop where
  target : tree.target path = .ok (.file place)
  cuts : tree.Cuts path values
  followed : Followed values
  asked : ∀ name, [.inclusion, .string name] <:+: values →
    tree.identify (path.directory.join (.ofBytes name)) ∈ seen

/-- All that a stretch asks for has been asked for, and its directives name paths. -/
def Stretch.Settled (tree : FileTree) (seen : List FileTree.Identity) : Stretch → Prop
  | .file path _ => tree.identify path ∈ seen
  | .tokens _ directory _ own => Followed (own.map (·.value)) ∧
      ∀ name, [.inclusion, .string name] <:+: own.map (·.value) →
        tree.identify (directory.join (.ofBytes name)) ∈ seen

section Finding

variable {tree : FileTree} {allowed : Path → Prop} {root : Path} {stretch : Stretch}
  {state middle after : Inclusions} {expansion : Expansion} {visits : List Visit}

theorem FileTree.Settled.mono {seen seen' : List FileTree.Identity} {path : Path} {place : Place}
    {values : List Token} (h : tree.Settled seen path place values) (hseen : seen ⊆ seen') :
    tree.Settled seen' path place values :=
  { h with asked := fun name hname => hseen (h.asked name hname) }

/-- An expansion without errors has settled all that it opened. -/
theorem Expands.settled (h : Expands tree stretch state expansion after visits)
    (hnone : expansion.errors = []) :
    stretch.Settled tree after.seen ∧ ∀ path ∈ after.opened,
      path ∈ state.opened ∨ ∃ place values, tree.Settled after.seen path place values := by
  induction h with
  | repeated hseen => exact ⟨hseen, fun path hmem => .inl hmem⟩
  | refused | bare | pathless => cases hnone
  | @faulty path _ _ bytes errors _ _ herrors =>
      obtain rfl : errors = [] := hnone
      exact absurd rfl (Reading.errors_ne_nil herrors)
  | nil =>
      refine ⟨⟨fun back hback => ?_, fun name hname => ?_⟩, fun path hmem => .inl hmem⟩
      · simp at hback
      · simp at hname
  | @opened path _ state after place bytes own _ _ hnew htarget hread htokens hrest ih =>
      obtain ⟨⟨hfollowed, hasked⟩, hopened⟩ := ih hnone
      refine ⟨hrest.seen_subset List.mem_cons_self, fun other hmem => ?_⟩
      rcases hopened other hmem with hmem | hsettled
      · rcases List.mem_cons.mp hmem with rfl | hmem
        · exact .inr ⟨place, _, htarget, FileTree.cuts_of_read hread htokens, hfollowed, hasked⟩
        · exact .inl hmem
      · exact .inr hsettled
  | token hvalue _ ih =>
      obtain ⟨⟨hfollowed, hasked⟩, hopened⟩ := ih hnone
      refine ⟨⟨hfollowed.cons hvalue, fun name hname => hasked name ?_⟩, hopened⟩
      exact (directive_infix_cons hvalue).mp hname
  | inclusion hvalue hnext _ hrest ihfile ihrest =>
      obtain ⟨hfile, hlater⟩ := List.append_eq_nil_iff.mp hnone
      obtain ⟨hseen, hincluded⟩ := ihfile hfile
      obtain ⟨⟨hfollowed, hasked⟩, hopened⟩ := ihrest hlater
      refine ⟨?_, fun path hmem => ?_⟩
      · rw [Stretch.Settled, List.map_cons, List.map_cons, hvalue, hnext]
        refine ⟨hfollowed.directive, fun name hname => ?_⟩
        rcases directive_infix_directive.mp hname with rfl | hname
        · exact hrest.seen_subset hseen
        · exact hasked name hname
      · rcases hopened path hmem with hmem | hsettled
        · refine (hincluded path hmem).imp_right ?_
          rintro ⟨place, values, hsettled⟩
          exact ⟨place, values, hsettled.mono hrest.seen_subset⟩
        · exact .inr hsettled

/-- Where all that has been asked for has been found, all that is reached has been opened. -/
theorem FileTree.Reaches.opened {path : Path} (h : tree.Reaches allowed root path)
    (hpaths : tree.Unlinked ∨ ∀ path, allowed path → path ∈ state.opened)
    (hroot : root ∈ state.opened) (hseen : state.seen = state.opened.map tree.identify)
    (hsettled : ∀ path ∈ state.opened, ∃ place values, tree.Settled state.seen path place values) :
    ∃ opened place values, opened ∈ state.opened ∧ tree.Settled state.seen opened place values ∧
      tree.resolve path = .ok (.file place) := by
  induction h with
  | root =>
      obtain ⟨place, values, h⟩ := hsettled root hroot
      exact ⟨root, place, values, hroot, h, resolve_of_target h.target⟩
  | @directive path values name _ hallowed hcuts hname ih =>
      have hfound : ∀ {opened : Path} {place : Place}, tree.Settled state.seen opened place values →
          ∃ next place' values', next ∈ state.opened ∧ tree.Settled state.seen next place' values' ∧
            tree.resolve (opened.directory.join (.ofBytes name)) = .ok (.file place') := by
        intro opened place h
        have hasked := h.asked name hname
        rw [hseen] at hasked
        obtain ⟨next, hnext, hsame⟩ := List.mem_map.mp hasked
        obtain ⟨place', values', h'⟩ := hsettled next hnext
        exact ⟨next, place', values', hnext, h', resolve_of_identify_eq h'.target hsame.symm⟩
      rcases hpaths with hlinks | hopened
      · -- The file has been opened under another path, and has the same directives there.
        obtain ⟨opened, place, own, hmem, h, hresolve⟩ := ih
        have hopened := resolve_of_target h.target
        obtain rfl := (hcuts.of_resolve hresolve hopened).unique h.cuts
        obtain ⟨next, place', values', hnext, h', hjoin⟩ := hfound h
        exact ⟨next, place', values', hnext, h',
          resolve_join_congr hlinks hopened hresolve _ hjoin⟩
      · obtain ⟨place, own, h⟩ := hsettled path (hopened path hallowed)
        obtain rfl := hcuts.unique h.cuts
        exact hfound h

end Finding

/-! ## Where its tokens stand -/

/-- The tokens that stand in the source of a path. -/
def tokensUnder (path : Path) (tokens : List (Located Token)) : List (Located Token) :=
  tokens.filter (·.location.source.name = path.text)

theorem tokensUnder_append (path : Path) (first second : List (Located Token)) :
    tokensUnder path (first ++ second) = tokensUnder path first ++ tokensUnder path second :=
  List.filter_append _ _

/-- The tokens of a reading stand in its source. -/
theorem Reading.source_name {name : String} {bytes : ByteArray} {tokens : List (Located Token)}
    (h : (ofBytes name bytes).tokens = .ok tokens) :
    ∀ token ∈ tokens, token.location.source.name = name := by
  intro token hmem
  obtain ⟨front, later, rfl⟩ := List.append_of_mem hmem
  obtain ⟨_, _, _, hencloses⟩ := Reading.encloses h List.mem_cons_self
  exact congrArg (·.name) hencloses.source

/-- What the tokens between two states of an expansion hold of the source of a path: nothing, or all
tokens of the file that is opened in between, but for its directives. -/
inductive Brings (tree : FileTree) (state after : Inclusions) (list : List (Located Token))
    (path : Path) : Prop
  | nothing (hknown : path ∈ after.opened → path ∈ state.opened) (hnone : tokensUnder path list = [])
  | file {bytes : ByteArray} {own : List (Located Token)} (hnew : path ∉ state.opened)
      (hopened : path ∈ after.opened) (hread : tree.read path = .ok bytes)
      (htokens : (Reading.ofBytes path.text bytes).tokens = .ok own)
      (hall : tokensUnder path list = plainTokens own)

/-- What a stretch brings of all sources. The rest of a source brings its own tokens. -/
def Stretch.Brings (tree : FileTree) (state after : Inclusions) (list : List (Located Token)) :
    Stretch → Prop
  | .file _ _ => ∀ path, AccumulatorC.Brings tree state after list path
  | .tokens _ _ _ own => ∀ current ∈ state.opened,
      (∀ token ∈ own, token.location.source.name = current.text) →
        tokensUnder current list = plainTokens own ∧
          ∀ path, path ≠ current → AccumulatorC.Brings tree state after list path

section Bringing

variable {tree : FileTree} {state middle after : Inclusions} {first second list : List (Located Token)}
  {path : Path}

namespace Brings

/-- A file that is open already brings no tokens again. -/
theorem eq_nil (h : Brings tree state after list path) (hpath : path ∈ state.opened) :
    tokensUnder path list = [] := by
  cases h with
  | nothing _ hnone => exact hnone
  | file hnew => exact absurd hpath hnew

theorem append (hfirst : Brings tree state middle first path)
    (hsecond : Brings tree middle after second path) (hstate : state.opened ⊆ middle.opened)
    (hmiddle : middle.opened ⊆ after.opened) : Brings tree state after (first ++ second) path := by
  cases hfirst with
  | nothing hknown hnone =>
      cases hsecond with
      | nothing hknown' hnone' =>
          refine .nothing (fun hpath => hknown (hknown' hpath)) ?_
          rw [tokensUnder_append, hnone, hnone', List.append_nil]
      | file hnew hopened hread htokens hall =>
          refine .file (fun hpath => hnew (hstate hpath)) hopened hread htokens ?_
          rw [tokensUnder_append, hnone, List.nil_append, hall]
  | file hnew hopened hread htokens hall =>
      refine .file hnew (hmiddle hopened) hread htokens ?_
      rw [tokensUnder_append, hsecond.eq_nil hopened, List.append_nil, hall]

end Brings

/-- An expansion without errors brings the tokens of every file that it opens, each once. -/
theorem Expands.brings {stretch : Stretch} {expansion : Expansion} {visits : List Visit}
    (h : Expands tree stretch state expansion after visits) (hnone : expansion.errors = [])
    (hstate : state.Noted tree) : stretch.Brings tree state after expansion.tokens := by
  induction h with
  | repeated => exact fun path => .nothing id rfl
  | refused | bare | pathless => cases hnone
  | faulty _ _ herrors => exact absurd hnone (Reading.errors_ne_nil herrors)
  | nil => exact fun current _ _ => ⟨rfl, fun path _ => .nothing id rfl⟩
  | @opened path _ state after place bytes own expansion _ hnew htarget hread htokens hrest ih =>
      intro other
      obtain ⟨hown, hothers⟩ :=
        ih hnone (hstate.ask hnew) path List.mem_cons_self (Reading.source_name htokens)
      by_cases hother : other = path
      · subst hother
        exact .file (fun hmem => hnew (hstate.noted other hmem))
          (hrest.opened_subset List.mem_cons_self) hread htokens hown
      · have hknown : other ∈ (state.ask tree path).opened → other ∈ state.opened :=
          List.mem_of_ne_of_mem hother
        cases hothers other hother with
        | nothing hmem hnothing => exact .nothing (fun h => hknown (hmem h)) hnothing
        | file hmem hopened hread' htokens' hall =>
            exact .file (fun h => hmem (List.mem_cons_of_mem _ h)) hopened hread' htokens' hall
  | @token _ _ _ token rest state after _ _ hvalue hrest ih =>
      intro current hcurrent hsource
      obtain ⟨htoken, hsource⟩ := List.forall_mem_cons.mp hsource
      obtain ⟨hown, hothers⟩ := ih hnone hstate current hcurrent hsource
      refine ⟨?_, fun path hpath => ?_⟩
      · rw [plainTokens_cons hvalue, ← hown]
        exact List.filter_cons_of_pos (by simpa using htoken)
      · have hnothing : Brings tree state state [token] path := by
          refine .nothing id (List.filter_cons_of_neg ?_)
          have hne : token.location.source.name ≠ path.text := fun heq =>
            hpath (congrArg Path.mk (heq.symm.trans htoken))
          simpa using hne
        exact hnothing.append (hothers path hpath) (List.Subset.refl _) hrest.opened_subset
  | @inclusion _ _ _ token next _ rest state middle after _ _ _ _ hvalue hnext hfile hrest ihfile
      ihrest =>
      intro current hcurrent hsource
      obtain ⟨hincluded, hlater⟩ := List.append_eq_nil_iff.mp hnone
      have hfirst := ihfile hincluded hstate
      obtain ⟨-, hsource⟩ := List.forall_mem_cons.mp hsource
      obtain ⟨-, hsource⟩ := List.forall_mem_cons.mp hsource
      obtain ⟨hown, hothers⟩ := ihrest hlater (hfile.noted hstate) current
        (hfile.opened_subset hcurrent) hsource
      refine ⟨?_, fun path hpath => ?_⟩
      · rw [plainTokens, if_pos hvalue, ← hown]
        -- The source has been opened, so that the included file brings nothing of it.
        show tokensUnder current (_ ++ _) = _
        rw [tokensUnder_append, (hfirst current).eq_nil hcurrent, List.nil_append]
      · exact (hfirst path).append (hothers path hpath) hfile.opened_subset hrest.opened_subset

/-- No directive is left in an expansion. -/
theorem Expands.value_ne_inclusion {stretch : Stretch} {expansion : Expansion} {visits : List Visit}
    (h : Expands tree stretch state expansion after visits) :
    ∀ token ∈ expansion.tokens, token.value ≠ .inclusion := by
  induction h with
  | repeated | refused | faulty | nil | bare => exact nofun
  | opened _ _ _ _ _ ih | pathless _ _ _ ih => exact ih
  | token hvalue _ ih => exact List.forall_mem_cons.mpr ⟨hvalue, ih⟩
  | inclusion _ _ _ _ ihfile ihrest => exact List.forall_mem_append.mpr ⟨ihfile, ihrest⟩

end Bringing

/-! ## Files with all that they include -/

namespace FileTree

/-- Tokens are those of all files that a file reaches, each file once, and each one in the place of the
first directive that asks for it. -/
structure Spliced (tree : FileTree) (allowed : Path → Prop) (root : Path)
    (tokens : List (Located Token)) (opened : List Path) : Prop where
  /-- Every directive stands for what its file stands for, seen from the directory of the file that it
  stands in, or for nothing if the file has been asked for. -/
  substituted : ∃ seen visits, Expands tree (.file root (.startOf root.text)) ⟨[], []⟩ ⟨tokens, []⟩
    ⟨seen, opened⟩ visits
  /-- No directive is left. -/
  expanded : ∀ token ∈ tokens, token.value ≠ .inclusion
  reached : ∀ path ∈ opened, tree.Reaches allowed root path
  /-- A file is opened under one of the paths that lead to it. -/
  once : ∀ path, tree.Reaches allowed root path → ∃ place, tree.resolve path = .ok (.file place) ∧
    ∃! spelling, spelling ∈ opened ∧ tree.target spelling = .ok (.file place)
  /-- All tokens of a file that belong to no directive stand among the others in their order. -/
  whole : ∀ path ∈ opened, ∃ bytes own, tree.read path = .ok bytes ∧
    (Reading.ofBytes path.text bytes).tokens = .ok own ∧ tokensUnder path tokens = plainTokens own
  sourced : ∀ token ∈ tokens, ∃ path ∈ opened, token.location.source.name = path.text

section Root

variable {tree : FileTree} {allowed : Path → Prop} {root : Path} {expansion : Expansion}
  {after : Inclusions} {visits : List Visit}

theorem noted_initial : Inclusions.Noted tree ⟨[], []⟩ := ⟨nofun, .nil⟩

/-- Nothing keeps the file that is compiled from being opened. -/
theorem root_mem_opened {location : Location}
    (h : Expands tree (.file root location) ⟨[], []⟩ expansion after visits) :
    root ∈ after.opened := by
  cases h with
  | repeated hseen => cases hseen
  | refused | faulty => exact List.mem_cons_self
  | opened _ _ _ _ hrest => exact hrest.opened_subset List.mem_cons_self

/-- Without errors, whatever the file reaches has been opened. -/
theorem exists_settled {location : Location}
    (h : Expands tree (.file root location) ⟨[], []⟩ expansion after visits)
    (hnone : expansion.errors = [])
    (hpaths : tree.Unlinked ∨ ∀ path, allowed path → path ∈ after.opened) {path : Path}
    (hpath : tree.Reaches allowed root path) :
    ∃ opened place values, opened ∈ after.opened ∧ tree.Settled after.seen opened place values ∧
      tree.resolve path = .ok (.file place) :=
  hpath.opened hpaths (root_mem_opened h) (h.seen_eq rfl) fun _ hmem =>
    ((h.settled hnone).2 _ hmem).resolve_left List.not_mem_nil

/-- The tokens that come out are those of the files, spliced in depth-first order. -/
theorem spliced_of_expands {tokens : List (Located Token)}
    (h : Expands tree (.file root (.startOf root.text)) ⟨[], []⟩ ⟨tokens, []⟩ after visits)
    (hallowed : ∀ path ∈ after.opened, allowed path)
    (hpaths : tree.Unlinked ∨ ∀ path, allowed path → path ∈ after.opened) :
    tree.Spliced allowed root tokens after.opened where
  substituted := ⟨after.seen, visits, h⟩
  expanded := h.value_ne_inclusion
  reached path hmem := (h.reached hallowed .root path hmem).resolve_left List.not_mem_nil
  once path hpath := by
    obtain ⟨opened, place, _, hmem, hsettled, hresolve⟩ := exists_settled h rfl hpaths hpath
    refine ⟨place, hresolve, opened, ⟨hmem, hsettled.target⟩, ?_⟩
    rintro other ⟨hother, htarget⟩
    apply List.inj_on_of_nodup_map (h.noted noted_initial).distinct hother hmem
    rw [identify_of_target htarget, identify_of_target hsettled.target]
  whole path hmem := by
    cases h.brings rfl noted_initial path with
    | nothing hknown => exact absurd (hknown hmem) List.not_mem_nil
    | file _ _ hread htokens hall => exact ⟨_, _, hread, htokens, hall⟩
  sourced token hmem := by
    cases h.brings rfl noted_initial ⟨token.location.source.name⟩ with
    | nothing _ hnone =>
        have hunder : token ∈ tokensUnder ⟨token.location.source.name⟩ tokens :=
          List.mem_filter.mpr ⟨hmem, by simp⟩
        rw [hnone] at hunder
        cases hunder
    | file _ hopened => exact ⟨_, hopened, rfl⟩

/-- A file is scanned exactly if every path that it reaches leads to a file that can be read and cut
into tokens and whose directives name paths, and no path that is opened is too long for that. Then the
tokens are those of all these files, spliced, and otherwise there is an error. The directives of a
file count under the path that it is opened under; under others that lead to it they may count, too,
if there are no links, since they ask for the same files then. -/
theorem tokens_iff_faultless (tree : FileTree) (root : Path) (allowed : Path → Prop)
    (hallowed : ∀ path ∈ (tree.expandRoot root).2.opened, allowed path)
    (hpaths : tree.Unlinked ∨ ∀ path, allowed path → path ∈ (tree.expandRoot root).2.opened) :
    ((∃ tokens, tree.tokens root = .ok tokens) ↔
      (∀ path, tree.Reaches allowed root path → tree.Faultless path) ∧
        ∀ path ∈ (tree.expandRoot root).2.opened, path.text.utf8ByteSize < pathLimit) ∧
    (∀ tokens, tree.tokens root = .ok tokens →
      tree.Spliced allowed root tokens (tree.expandRoot root).2.opened) ∧
    ∀ errors, tree.tokens root = .error errors → errors ≠ [] := by
  obtain ⟨visits, h⟩ := tree.expandRoot_expands root
  unfold tokens
  generalize (tree.expandRoot root).1 = expansion at h
  generalize (tree.expandRoot root).2 = after at h hallowed hpaths ⊢
  refine ⟨?_, ?_, ?_⟩
  · rw [Expansion.exists_result]
    constructor
    · intro hnone
      refine ⟨fun path hpath => ?_, fun path hmem => ?_⟩
      · obtain ⟨_, _, values, _, hsettled, hresolve⟩ := exists_settled h hnone hpaths hpath
        have hcuts := hsettled.cuts.of_resolve (resolve_of_target hsettled.target) hresolve
        exact ⟨values, hcuts, hsettled.followed⟩
      · obtain ⟨place, values, hsettled⟩ :=
          ((h.settled hnone).2 path hmem).resolve_left List.not_mem_nil
        exact length_lt_of_target hsettled.target
    · rintro ⟨hfaultless, hshort⟩
      exact h.errors_eq_nil hfaultless hallowed hshort .root trivial
  · intro tokens hresult
    obtain ⟨own, errors⟩ := expansion
    obtain rfl := Expansion.exists_result.mp ⟨tokens, hresult⟩
    obtain rfl := Expansion.tokens_eq_of_result hresult
    exact spliced_of_expands h hallowed hpaths
  · exact fun errors => Expansion.errors_ne_nil

end Root

/-! ### The circle of files, whole and torn -/

/-- The two files in a circle, the second one with a directive that names no path. -/
def tornCircle : FileTree := circle.store ["a.h"] "#include x".toUTF8

/-- Two files that include each other are spliced once each, and with a torn directive in one of
them there are errors only. -/
theorem circle_spliced :
    circle.Unlinked ∧ tornCircle.Unlinked ∧
    (∃ tokens, circle.tokens ⟨"main.c"⟩ = .ok tokens ∧
      circle.Spliced (fun _ => True) ⟨"main.c"⟩ tokens
        (circle.expandRoot ⟨"main.c"⟩).2.opened) ∧
    (∀ path, circle.Reaches (fun _ => True) ⟨"main.c"⟩ path → circle.Faultless path) ∧
    ∃ errors path, tornCircle.tokens ⟨"main.c"⟩ = .error errors ∧ errors ≠ [] ∧
      tornCircle.Reaches (fun _ => True) ⟨"main.c"⟩ path ∧ ¬ tornCircle.Faultless path := by
  have hlinks : circle.Unlinked := List.forall_mem_nil _
  have htornLinks : tornCircle.Unlinked := List.forall_mem_nil _
  obtain ⟨hiff, hspliced, -⟩ := circle.tokens_iff_faultless ⟨"main.c"⟩ (fun _ => True)
    (fun _ _ => trivial) (.inl hlinks)
  obtain ⟨htorn, -, herrors⟩ := tornCircle.tokens_iff_faultless ⟨"main.c"⟩ (fun _ => True)
    (fun _ _ => trivial) (.inl htornLinks)
  have hok := eq_ok_of_isOk (show (circle.tokens ⟨"main.c"⟩).isOk = true by decide +kernel) []
  have hshort : ∀ path ∈ (tornCircle.expandRoot ⟨"main.c"⟩).2.opened,
      path.text.utf8ByteSize < pathLimit := by decide +kernel
  refine ⟨hlinks, htornLinks, ⟨_, hok, hspliced _ hok⟩, (hiff.mp ⟨_, hok⟩).1, ?_⟩
  cases hresult : tornCircle.tokens ⟨"main.c"⟩ with
  | ok tokens =>
      have hnot : (tornCircle.tokens ⟨"main.c"⟩).isOk = false := by decide +kernel
      rw [hresult] at hnot
      cases hnot
  | error errors =>
      have hfaulty : ¬ ∀ path, tornCircle.Reaches (fun _ => True) ⟨"main.c"⟩ path →
          tornCircle.Faultless path := by
        intro hfaultless
        obtain ⟨tokens, htokens⟩ := htorn.mpr ⟨hfaultless, hshort⟩
        cases hresult.symm.trans htokens
      push Not at hfaulty
      obtain ⟨path, hpath, hfault⟩ := hfaulty
      exact ⟨errors, path, rfl, herrors errors hresult, hpath, hfault⟩

end FileTree

end AccumulatorC
