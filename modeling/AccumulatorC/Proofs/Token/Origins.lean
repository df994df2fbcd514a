import AccumulatorC.Compile
import AccumulatorC.Proofs.Token.Expanding

/-!
# Where tokens come from

Every token that is compiled comes from a file or from the text that is compiled. Files are included
in the middle of others, so tokens of several sources follow one another; but those of one source
stand in its order, since a source is taken once.
-/

namespace AccumulatorC

/-! ## Inputs -/

/-- What is compiled: a file, or text that is in no file. -/
inductive Input
  | file (path : Path)
  | text (source : String)

namespace Input

/-- The tokens of an input with everything that it includes. -/
def tokens (tree : FileTree) :
    Input → Except (List (Located LexError)) (List (Located Token))
  | file path => tree.tokens path
  | text source => tree.textTokens "<input>" source.toUTF8 ⟨"."⟩

/-- What keeps an input from being read with everything that it includes. -/
def obstacle? (tree : FileTree) : Input → Option Breakdown
  | file path => tree.rootObstacle? path
  | text source => tree.textObstacle? "<input>" source.toUTF8 ⟨"."⟩

/-- Compiles an input. -/
def compile (tree : FileTree) (options : Options) :
    Input → Except (Stop Diagnostics) Compiled
  | file path => tree.compileFile options path
  | text source => tree.compileText options source

/-- Every input is compiled from the tokens that it brings, each with its owner. -/
theorem compile_eq (tree : FileTree) (options : Options) (input : Input) :
    input.compile tree options =
      compileSources options (input.obstacle? tree) (input.tokens tree) := by
  cases input <;> rfl

/-- What is read for a file of a tree, or for the text that is compiled. -/
inductive Reads (tree : FileTree) : Input → Option Place → Reading → Prop
  | text (source : String) : Reads tree (text source) none (.ofBytes "<input>" source.toUTF8)
  | file (input : Input) {path : Path} {place : Place} {bytes : ByteArray}
      (htarget : tree.target path = .ok (.file place))
      (hcontent : tree.content? place = some bytes) :
      Reads tree input (some place) (.ofBytes path.text bytes)

/-- What an input reads is made of the bytes of a source. -/
theorem Reads.exists_bytes {tree : FileTree} {input : Input} {owner : Option Place}
    {reading : Reading} (h : input.Reads tree owner reading) :
    ∃ name bytes, reading = .ofBytes name bytes := by
  cases h with
  | text | file => exact ⟨_, _, rfl⟩

/-- What is read for an input itself. -/
def reading? (tree : FileTree) : Input → Option Reading
  | file path => (tree.read path).toOption.map (.ofBytes path.text ·)
  | text source => some (.ofBytes "<input>" source.toUTF8)

/-- An input has no directives. -/
def IsPlain (tree : FileTree) (input : Input) : Prop :=
  ∀ reading tokens, input.reading? tree = some reading → reading.tokens = .ok tokens →
    ∀ token ∈ tokens, token.value ≠ .inclusion

end Input

/-! ## Tokens with their sources -/

/-- A token and the file that it stands in, if it stands in one. -/
structure SourcedToken where
  token : Located Token
  owner : Option Place

/-- The tokens that stand in one source. -/
def tokensOf (owner : Option Place) (list : List SourcedToken) : List (Located Token) :=
  (list.filter (·.owner = owner)).map (·.token)

section TokensOf

variable {owner : Option Place}

@[simp] theorem tokensOf_append (first second : List SourcedToken) :
    tokensOf owner (first ++ second) = tokensOf owner first ++ tokensOf owner second := by
  rw [tokensOf, List.filter_append, List.map_append]
  rfl

theorem tokensOf_own (token : Located Token) : tokensOf owner [⟨token, owner⟩] = [token] := by
  simp [tokensOf]

theorem tokensOf_other (token : Located Token) {other : Option Place} (h : other ≠ owner) :
    tokensOf other [⟨token, owner⟩] = [] := by
  simp [tokensOf, Ne.symm h]

/-- A source in front adds its token to those of its owner. -/
theorem tokensOf_cons (source : SourcedToken) (list : List SourcedToken) :
    tokensOf source.owner (source :: list) = source.token :: tokensOf source.owner list := by
  simp [tokensOf]

theorem token_mem_tokensOf {source : SourcedToken} {list : List SourcedToken}
    (hmem : source ∈ list) : source.token ∈ tokensOf source.owner list :=
  List.mem_map_of_mem (List.mem_filter.mpr ⟨hmem, decide_eq_true rfl⟩)

end TokensOf

/-! ## Files among the tokens -/

/-- What the tokens between two states of an expansion hold of a source: nothing, or some of the
tokens of a file in their order, and then the file is asked for in between. -/
inductive Adds (tree : FileTree) (state after : Inclusions) (list : List SourcedToken) :
    Option Place → Prop
  | nothing {owner : Option Place} (hnone : tokensOf owner list = []) :
      Adds tree state after list owner
  | file {path : Path} {place : Place} {bytes : ByteArray} {tokens : List (Located Token)}
      (hnew : .existing place ∉ state.seen) (hseen : .existing place ∈ after.seen)
      (htarget : tree.target path = .ok (.file place))
      (hcontent : tree.content? place = some bytes)
      (htokens : (Reading.ofBytes path.text bytes).tokens = .ok tokens)
      (hsublist : (tokensOf (some place) list).Sublist tokens) :
      Adds tree state after list (some place)

namespace Adds

variable {tree : FileTree} {state middle after : Inclusions} {first second list : List SourcedToken}
  {owner : Option Place}

theorem eq_nil (h : Adds tree state after list owner)
    (howner : ∀ place, owner = some place → .existing place ∈ state.seen) :
    tokensOf owner list = [] := by
  cases h with
  | nothing hnone => exact hnone
  | file hnew => exact absurd (howner _ rfl) hnew

/-- A source that both stretches hold would be asked for twice. -/
theorem append (hfirst : Adds tree state middle first owner)
    (hsecond : Adds tree middle after second owner) (hstate : state.seen ⊆ middle.seen)
    (hmiddle : middle.seen ⊆ after.seen) : Adds tree state after (first ++ second) owner := by
  cases hfirst with
  | nothing hnone =>
      cases hsecond with
      | nothing hnone' =>
          apply Adds.nothing
          rw [tokensOf_append, hnone, hnone', List.append_nil]
      | file hnew hseen htarget hcontent htokens hsublist =>
          apply Adds.file (fun hmem => hnew (hstate hmem)) hseen htarget hcontent htokens
          rwa [tokensOf_append, hnone, List.nil_append]
  | file hnew hseen htarget hcontent htokens hsublist =>
      have hnone := hsecond.eq_nil fun place hplace => Option.some.inj hplace ▸ hseen
      apply Adds.file hnew (hmiddle hseen) htarget hcontent htokens
      rwa [tokensOf_append, hnone, List.append_nil]

theorem of_seen (h : Adds tree middle after list owner) (hstate : state.seen ⊆ middle.seen) :
    Adds tree state after list owner := by
  cases h with
  | nothing hnone => exact .nothing hnone
  | file hnew hseen htarget hcontent htokens hsublist =>
      exact .file (fun hmem => hnew (hstate hmem)) hseen htarget hcontent htokens hsublist

end Adds

/-- Where the tokens come from that a stretch stands for. The rest of a source holds its own tokens
in their order, and files that have not been asked for. -/
def Stretch.Supplies (tree : FileTree) (state after : Inclusions) (list : List SourcedToken) :
    Stretch → Prop
  | .file _ _ => ∀ owner, Adds tree state after list owner
  | .tokens owner _ _ own => (∀ place, owner = some place → .existing place ∈ state.seen) →
      (tokensOf owner list).Sublist own ∧
        ∀ other, other ≠ owner → Adds tree state after list other

theorem Expands.supplies {tree : FileTree} {stretch : Stretch} {state after : Inclusions}
    {expansion : Expansion} {visits : List Visit}
    (h : Expands tree stretch state expansion after visits) :
    ∃ list, list.map (·.token) = expansion.tokens ∧ stretch.Supplies tree state after list := by
  induction h with
  | repeated | refused | faulty => exact ⟨[], rfl, fun _ => .nothing rfl⟩
  | nil | bare => exact ⟨[], rfl, fun _ => ⟨List.nil_sublist _, fun _ _ => .nothing rfl⟩⟩
  | @opened path _ state after place bytes tokens _ _ hnew htarget hread htokens hrest ih =>
      obtain ⟨list, hlist, hsupplies⟩ := ih
      obtain ⟨found, hfound, hcontent⟩ := FileTree.target_of_read hread
      cases htarget.symm.trans hfound
      have hidentity := FileTree.identify_of_target htarget
      have hask : .existing place ∈ (state.ask tree path).seen := hidentity ▸ List.mem_cons_self
      obtain ⟨hown, hothers⟩ := hsupplies fun other hother => Option.some.inj hother ▸ hask
      refine ⟨list, hlist, fun owner => ?_⟩
      by_cases howner : owner = some place
      · subst howner
        exact .file (hidentity ▸ hnew) (hrest.seen_subset hask) htarget hcontent htokens hown
      · exact (hothers owner howner).of_seen (List.subset_cons_self _ _)
  | @token owner _ _ token rest state after _ _ _ hrest ih =>
      obtain ⟨list, hlist, hsupplies⟩ := ih
      refine ⟨⟨token, owner⟩ :: list, congrArg (List.cons token) hlist, fun howner => ?_⟩
      obtain ⟨hown, hothers⟩ := hsupplies howner
      rw [← List.singleton_append]
      constructor
      · rw [tokensOf_append, tokensOf_own]
        exact hown.cons_cons token
      · intro other hother
        have hnone : Adds tree state state [⟨token, owner⟩] other :=
          .nothing (tokensOf_other token hother)
        exact hnone.append (hothers other hother) (List.Subset.refl _) hrest.seen_subset
  | @pathless owner _ _ token next _ _ _ _ _ _ _ _ ih =>
      obtain ⟨list, hlist, hsupplies⟩ := ih
      refine ⟨list, hlist, fun howner => ?_⟩
      obtain ⟨hown, hothers⟩ := hsupplies howner
      exact ⟨(hown.cons next).cons token, hothers⟩
  | @inclusion owner _ _ token next _ rest state middle after _ _ _ _ _ _ hfile hrest ihfile ihrest =>
      obtain ⟨first, hfirst, hadds⟩ := ihfile
      obtain ⟨second, hsecond, hsupplies⟩ := ihrest
      refine ⟨first ++ second, ?_, fun howner => ?_⟩
      · rw [List.map_append, hfirst, hsecond]
        rfl
      · obtain ⟨hown, hothers⟩ :=
          hsupplies fun place hplace => hfile.seen_subset (howner place hplace)
        -- The source has been asked for, so that the included file holds none of its tokens.
        have hnone := (hadds owner).eq_nil howner
        constructor
        · rw [tokensOf_append, hnone, List.nil_append]
          exact (hown.cons next).cons token
        · intro other hother
          exact (hadds other).append (hothers other hother) hfile.seen_subset hrest.seen_subset

/-! ## Tokens of an input -/

/-- The tokens of every source are some of those that it is read as, in their order. -/
def Input.Sources (tree : FileTree) (input : Input) (list : List SourcedToken) : Prop :=
  ∀ source ∈ list, ∃ reading own, input.Reads tree source.owner reading ∧
    reading.tokens = .ok own ∧ (tokensOf source.owner list).Sublist own

theorem Adds.exists_reads {tree : FileTree} {state after : Inclusions} {list : List SourcedToken}
    {owner : Option Place} (h : Adds tree state after list owner) (input : Input)
    {source : SourcedToken} (hmem : source ∈ list) (howner : source.owner = owner) :
    ∃ reading own, input.Reads tree owner reading ∧ reading.tokens = .ok own ∧
      (tokensOf owner list).Sublist own := by
  cases h with
  | nothing hnone =>
      have hown : source ∈ list.filter (·.owner = owner) :=
        List.mem_filter.mpr ⟨hmem, decide_eq_true howner⟩
      rw [List.map_eq_nil_iff.mp hnone] at hown
      cases hown
  | file _ _ htarget hcontent htokens hsublist =>
      exact ⟨_, _, .file input htarget hcontent, htokens, hsublist⟩

theorem Input.exists_sources_of_tokens {tree : FileTree} {input : Input}
    {tokens : List (Located Token)} (h : input.tokens tree = .ok tokens) :
    ∃ list, list.map (·.token) = tokens ∧ input.Sources tree list := by
  cases input with
  | file path =>
      obtain ⟨_, hexpands⟩ := tree.expandRoot_expands path
      obtain ⟨list, hlist, hadds⟩ := hexpands.supplies
      refine ⟨list, hlist.trans (Expansion.tokens_eq_of_result h), fun source hmem => ?_⟩
      exact (hadds source.owner).exists_reads _ hmem rfl
  | text source =>
      obtain rfl | ⟨own, expansion, after, visits, htokens, hexpands, hresult⟩ :=
        tree.textTokens_expands h
      · exact ⟨[], rfl, fun _ hmem => nomatch hmem⟩
      · obtain ⟨list, hlist, hsupplies⟩ := hexpands.supplies
        obtain ⟨hown, hothers⟩ := hsupplies nofun
        refine ⟨list, hlist.trans hresult, fun token hmem => ?_⟩
        by_cases howner : token.owner = none
        · rw [howner]
          exact ⟨_, own, .text source, htokens, hown⟩
        · exact (hothers token.owner howner).exists_reads _ hmem rfl

/-- Tokens without a directive stand for themselves. -/
theorem Expands.tokens_of_plain {tree : FileTree} {owner : Option Place} {directory : Path}
    {before : Nat} {tokens : List (Located Token)} {state after : Inclusions}
    {expansion : Expansion} {visits : List Visit}
    (h : Expands tree (.tokens owner directory before tokens) state expansion after visits)
    (hplain : ∀ token ∈ tokens, token.value ≠ .inclusion) : expansion.tokens = tokens := by
  induction tokens generalizing before expansion visits with
  | nil =>
      cases h
      rfl
  | cons token rest ih =>
      obtain ⟨htoken, hrest⟩ := List.forall_mem_cons.mp hplain
      cases h with
      | token _ h => exact congrArg (List.cons token) (ih h hrest)
      | bare hvalue | pathless hvalue | inclusion hvalue => exact absurd hvalue htoken

/-- The tokens of an input without directives are those that it is read as. -/
theorem Input.exists_reads_of_plain {tree : FileTree} {input : Input}
    {tokens : List (Located Token)} (h : input.tokens tree = .ok tokens) (hne : tokens ≠ [])
    (hplain : input.IsPlain tree) :
    ∃ owner reading, input.Reads tree owner reading ∧ reading.tokens = .ok tokens := by
  cases input with
  | file path =>
      obtain ⟨_, hexpands⟩ := tree.expandRoot_expands path
      have hresult := Expansion.tokens_eq_of_result h
      generalize (tree.expandRoot path).1 = expansion at hexpands hresult
      generalize (tree.expandRoot path).2 = after at hexpands
      subst hresult
      cases hexpands with
      | repeated | refused | faulty => exact absurd rfl hne
      | @opened _ _ _ _ place bytes own _ _ _ htarget hread htokens hrest =>
          obtain ⟨found, hfound, hcontent⟩ := FileTree.target_of_read hread
          cases htarget.symm.trans hfound
          have hreading : (Input.file path).reading? tree = some (.ofBytes path.text bytes) := by
            rw [reading?, hread]
            rfl
          rw [hrest.tokens_of_plain (hplain _ own hreading htokens)]
          exact ⟨_, _, .file _ htarget hcontent, htokens⟩
  | text source =>
      obtain rfl | ⟨own, expansion, after, visits, htokens, hexpands, rfl⟩ :=
        tree.textTokens_expands h
      · exact absurd rfl hne
      · rw [hexpands.tokens_of_plain (hplain _ own rfl htokens)]
        exact ⟨none, _, .text source, htokens⟩

theorem Input.sources_of_reads {tree : FileTree} {input : Input} {owner : Option Place}
    {reading : Reading} {tokens : List (Located Token)} (h : input.Reads tree owner reading)
    (htokens : reading.tokens = .ok tokens) :
    input.Sources tree (tokens.map (⟨·, owner⟩)) := by
  intro source hmem
  obtain ⟨token, -, rfl⟩ := List.mem_map.mp hmem
  refine ⟨reading, tokens, h, htokens, ?_⟩
  have hall : tokensOf owner (tokens.map (⟨·, owner⟩)) = tokens := by
    rw [tokensOf, List.filter_eq_self.mpr (by simp), List.map_map]
    exact List.map_id tokens
  rw [hall]

/-- Every token of an input has a source, and without directives this is the same for all. -/
theorem Input.exists_sources {tree : FileTree} {input : Input} {tokens : List (Located Token)}
    (h : input.tokens tree = .ok tokens) (hne : tokens ≠ []) :
    ∃ list, list.map (·.token) = tokens ∧ input.Sources tree list ∧
      (input.IsPlain tree → ∃ owner, ∀ source ∈ list, source.owner = owner) := by
  by_cases hplain : input.IsPlain tree
  · obtain ⟨owner, reading, hreads, htokens⟩ := Input.exists_reads_of_plain h hne hplain
    refine ⟨tokens.map (⟨·, owner⟩), ?_, Input.sources_of_reads hreads htokens,
      fun _ => ⟨owner, ?_⟩⟩
    · rw [List.map_map]
      exact List.map_id tokens
    · intro source hmem
      obtain ⟨token, -, rfl⟩ := List.mem_map.mp hmem
      rfl
  · obtain ⟨list, hlist, hsources⟩ := Input.exists_sources_of_tokens h
    exact ⟨list, hlist, hsources, fun h => absurd h hplain⟩

end AccumulatorC
