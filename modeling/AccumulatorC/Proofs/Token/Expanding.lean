import Mathlib.Data.Finset.Card
import AccumulatorC.Proofs.Files.Opening
import AccumulatorC.Proofs.Token.Words

/-!
# Expanding without a bound

Expanding inclusions as a relation that follows the files from one directive to the next and knows no
depth. The expansion of a file stands in this relation, since every file that is opened is a new one
and there are only finitely many; and nothing else does.
-/

namespace AccumulatorC

/-! ## Stretches and visits -/

/-- What is expanded: a file that is asked for at some location, or what is left of the tokens of a
source, which is a file or text in none, after so many of them. -/
inductive Stretch
  | file (path : Path) (location : Location)
  | tokens (owner : Option Place) (directory : Path) (before : Nat) (tokens : List (Located Token))

/-- A directive that is reached: the file that it stands in, how many tokens of the file stand in
front of it, the path that it asks for, and the paths that have been opened until then. -/
structure Visit where
  owner : Option Place
  before : Nat
  path : Path
  opened : List Path

/-- A path is asked for, and opened, for the first time. -/
def Inclusions.ask (tree : FileTree) (path : Path) (state : Inclusions) : Inclusions :=
  ⟨tree.identify path :: state.seen, path :: state.opened⟩

/-- What a stretch stands for, with what has been asked for before and after it and the directives
that are reached on the way. -/
inductive Expands (tree : FileTree) :
    Stretch → Inclusions → Expansion → Inclusions → List Visit → Prop
  | repeated {path : Path} {location : Location} {state : Inclusions}
      (hseen : tree.identify path ∈ state.seen) :
      Expands tree (.file path location) state .empty state []
  | refused {path : Path} {location : Location} {state : Inclusions} {cause : FileError}
      (hnew : tree.identify path ∉ state.seen) (hread : tree.read path = .error cause) :
      Expands tree (.file path location) state (.ofError (.inclusion path cause) location)
        (state.ask tree path) []
  | faulty {path : Path} {location : Location} {state : Inclusions} {bytes : ByteArray}
      {errors : List (Located LexError)} (hnew : tree.identify path ∉ state.seen)
      (hread : tree.read path = .ok bytes)
      (herrors : (Reading.ofBytes path.text bytes).tokens = .error errors) :
      Expands tree (.file path location) state ⟨[], errors⟩ (state.ask tree path) []
  | opened {path : Path} {location : Location} {state after : Inclusions} {place : Place}
      {bytes : ByteArray} {tokens : List (Located Token)} {expansion : Expansion}
      {visits : List Visit} (hnew : tree.identify path ∉ state.seen)
      (htarget : tree.target path = .ok (.file place)) (hread : tree.read path = .ok bytes)
      (htokens : (Reading.ofBytes path.text bytes).tokens = .ok tokens)
      (h : Expands tree (.tokens (some place) path.directory 0 tokens) (state.ask tree path)
        expansion after visits) :
      Expands tree (.file path location) state expansion after visits
  | nil {owner : Option Place} {directory : Path} {before : Nat} {state : Inclusions} :
      Expands tree (.tokens owner directory before []) state .empty state []
  | token {owner : Option Place} {directory : Path} {before : Nat} {token : Located Token}
      {rest : List (Located Token)} {state after : Inclusions} {expansion : Expansion}
      {visits : List Visit} (hvalue : token.value ≠ .inclusion)
      (h : Expands tree (.tokens owner directory (before + 1) rest) state expansion after visits) :
      Expands tree (.tokens owner directory before (token :: rest)) state
        (.ofToken token ++ expansion) after visits
  | bare {owner : Option Place} {directory : Path} {before : Nat} {token : Located Token}
      {state : Inclusions} (hvalue : token.value = .inclusion) :
      Expands tree (.tokens owner directory before [token]) state
        (.ofError .missingInclusionPath token.location) state []
  | pathless {owner : Option Place} {directory : Path} {before : Nat} {token next : Located Token}
      {rest : List (Located Token)} {state after : Inclusions} {expansion : Expansion}
      {visits : List Visit} (hvalue : token.value = .inclusion)
      (hnext : ∀ bytes, next.value ≠ .string bytes)
      (h : Expands tree (.tokens owner directory (before + 2) rest) state expansion after visits) :
      Expands tree (.tokens owner directory before (token :: next :: rest)) state
        (.ofError .missingInclusionPath token.location ++ expansion) after visits
  | inclusion {owner : Option Place} {directory : Path} {before : Nat}
      {token next : Located Token} {bytes : List UInt8} {rest : List (Located Token)}
      {state middle after : Inclusions} {included expansion : Expansion}
      {visits later : List Visit} (hvalue : token.value = .inclusion)
      (hnext : next.value = .string bytes)
      (hfile : Expands tree (.file (directory.join (.ofBytes bytes)) token.location) state included
        middle visits)
      (hrest : Expands tree (.tokens owner directory (before + 2) rest) middle expansion after
        later) :
      Expands tree (.tokens owner directory before (token :: next :: rest)) state
        (included ++ expansion) after
        (⟨owner, before, directory.join (.ofBytes bytes), state.opened⟩ :: (visits ++ later))

namespace Expands

variable {tree : FileTree} {stretch : Stretch} {state after after' : Inclusions}
  {expansion expansion' : Expansion} {visits visits' : List Visit}

/-- A stretch has only one expansion. -/
theorem unique (h : Expands tree stretch state expansion after visits)
    (h' : Expands tree stretch state expansion' after' visits') :
    expansion = expansion' ∧ after = after' ∧ visits = visits' := by
  induction h generalizing expansion' after' visits' with
  | repeated hseen =>
      cases h' with
      | repeated => exact ⟨rfl, rfl, rfl⟩
      | refused hnew | faulty hnew | opened hnew => exact absurd hseen hnew
  | refused hnew hread =>
      cases h' with
      | repeated hseen => exact absurd hseen hnew
      | refused _ hread' =>
          cases hread.symm.trans hread'
          exact ⟨rfl, rfl, rfl⟩
      | faulty _ hread' | opened _ _ hread' => cases hread.symm.trans hread'
  | faulty hnew hread herrors =>
      cases h' with
      | repeated hseen => exact absurd hseen hnew
      | refused _ hread' => cases hread.symm.trans hread'
      | faulty _ hread' herrors' =>
          cases hread.symm.trans hread'
          cases herrors.symm.trans herrors'
          exact ⟨rfl, rfl, rfl⟩
      | opened _ _ hread' htokens =>
          cases hread.symm.trans hread'
          cases herrors.symm.trans htokens
  | opened hnew htarget hread htokens _ ih =>
      cases h' with
      | repeated hseen => exact absurd hseen hnew
      | refused _ hread' => cases hread.symm.trans hread'
      | faulty _ hread' herrors =>
          cases hread.symm.trans hread'
          cases htokens.symm.trans herrors
      | opened _ htarget' hread' htokens' h' =>
          cases hread.symm.trans hread'
          cases htokens.symm.trans htokens'
          cases htarget.symm.trans htarget'
          exact ih h'
  | nil =>
      cases h'
      exact ⟨rfl, rfl, rfl⟩
  | token hvalue _ ih =>
      cases h' with
      | token _ h' =>
          obtain ⟨rfl, rfl, rfl⟩ := ih h'
          exact ⟨rfl, rfl, rfl⟩
      | bare hvalue' | pathless hvalue' | inclusion hvalue' => exact absurd hvalue' hvalue
  | bare hvalue =>
      cases h' with
      | token hvalue' => exact absurd hvalue hvalue'
      | bare => exact ⟨rfl, rfl, rfl⟩
  | pathless hvalue hnext _ ih =>
      cases h' with
      | token hvalue' => exact absurd hvalue hvalue'
      | pathless _ _ h' =>
          obtain ⟨rfl, rfl, rfl⟩ := ih h'
          exact ⟨rfl, rfl, rfl⟩
      | inclusion _ hnext' => exact absurd hnext' (hnext _)
  | inclusion hvalue hnext _ _ ihfile ihrest =>
      cases h' with
      | token hvalue' => exact absurd hvalue hvalue'
      | pathless _ hnext' => exact absurd hnext (hnext' _)
      | inclusion _ hnext' hfile hrest =>
          cases hnext.symm.trans hnext'
          obtain ⟨rfl, rfl, rfl⟩ := ihfile hfile
          obtain ⟨rfl, rfl, rfl⟩ := ihrest hrest
          exact ⟨rfl, rfl, rfl⟩

/-- What has been asked for stays noted. -/
theorem seen_subset (h : Expands tree stretch state expansion after visits) :
    state.seen ⊆ after.seen := by
  induction h with
  | repeated | nil | bare => exact List.Subset.refl _
  | refused | faulty => exact List.subset_cons_self _ _
  | opened _ _ _ _ _ ih => exact List.Subset.trans (List.subset_cons_self _ _) ih
  | token _ _ ih | pathless _ _ _ ih => exact ih
  | inclusion _ _ _ _ ihfile ihrest => exact List.Subset.trans ihfile ihrest

/-- What has been opened stays so. -/
theorem opened_subset (h : Expands tree stretch state expansion after visits) :
    state.opened ⊆ after.opened := by
  induction h with
  | repeated | nil | bare => exact List.Subset.refl _
  | refused | faulty => exact List.subset_cons_self _ _
  | opened _ _ _ _ _ ih => exact List.Subset.trans (List.subset_cons_self _ _) ih
  | token _ _ ih | pathless _ _ _ ih => exact ih
  | inclusion _ _ _ _ ihfile ihrest => exact List.Subset.trans ihfile ihrest

end Expands

/-! ## Enough depth -/

namespace FileTree

variable {tree : FileTree} {path : Path} {place : Place}

/-- The files that have not been asked for. -/
def unseen (tree : FileTree) (state : Inclusions) : Finset Place :=
  tree.places.toFinset.filter (.existing · ∉ state.seen)

theorem unseen_subset {state after : Inclusions} (h : state.seen ⊆ after.seen) :
    tree.unseen after ⊆ tree.unseen state := by
  intro place hmem
  rw [unseen, Finset.mem_filter] at hmem ⊢
  exact ⟨hmem.1, fun hseen => hmem.2 (h hseen)⟩

/-- Opening a file leaves fewer files. -/
theorem card_unseen_ask {state : Inclusions} {bytes : ByteArray}
    (hnew : tree.identify path ∉ state.seen) (hread : tree.read path = .ok bytes) :
    (tree.unseen (state.ask tree path)).card < (tree.unseen state).card := by
  obtain ⟨place, htarget, hcontent⟩ := target_of_read hread
  have hidentity := identify_of_target htarget
  apply Finset.card_lt_card
  rw [Finset.ssubset_iff_of_subset (unseen_subset (List.subset_cons_self _ _))]
  refine ⟨place, ?_, ?_⟩
  · rw [unseen, Finset.mem_filter, List.mem_toFinset]
    exact ⟨mem_places_of_content? hcontent, hidentity ▸ hnew⟩
  · rw [unseen, Finset.mem_filter, Inclusions.ask, hidentity]
    exact fun h => h.2 List.mem_cons_self

theorem card_unseen_le (state : Inclusions) :
    (tree.unseen state).card ≤ tree.files.length + tree.entries.length :=
  calc
    (tree.unseen state).card ≤ tree.places.toFinset.card := Finset.card_filter_le _ _
    _ ≤ tree.places.length := List.toFinset_card_le _
    _ = tree.files.length + tree.entries.length := by
      rw [places, List.length_append, List.length_map, List.length_map]

end FileTree

section Depth

variable {tree : FileTree}

theorem expandTokens_expands {enter : Path → Location → StateM Inclusions Expansion} {depth : Nat}
    (henter : ∀ path location state, (tree.unseen state).card < depth →
      ∃ visits, Expands tree (.file path location) state ((enter path location).run state).1
        ((enter path location).run state).2 visits)
    (owner : Option Place) (directory : Path) (before : Nat) (tokens : List (Located Token))
    (state : Inclusions) (hstate : (tree.unseen state).card < depth) :
    ∃ visits, Expands tree (.tokens owner directory before tokens) state
      ((expandTokens enter directory tokens).run state).1
      ((expandTokens enter directory tokens).run state).2 visits := by
  fun_induction expandTokens enter directory tokens generalizing before state with
  | case1 => exact ⟨[], .nil⟩
  | case2 token hvalue => exact ⟨[], .bare hvalue⟩
  | case3 token hvalue => exact ⟨[], .token hvalue .nil⟩
  | case4 token next rest hvalue bytes hnext ih =>
      obtain ⟨visits, hfile⟩ := henter (directory.join (.ofBytes bytes)) token.location state hstate
      have hmiddle := Nat.lt_of_le_of_lt
        (Finset.card_le_card (FileTree.unseen_subset hfile.seen_subset)) hstate
      obtain ⟨later, hrest⟩ := ih (before + 2) _ hmiddle
      exact ⟨_, .inclusion hvalue hnext hfile hrest⟩
  | case5 token next rest hvalue hnext ih =>
      obtain ⟨visits, hrest⟩ := ih (before + 2) state hstate
      exact ⟨visits, .pathless hvalue hnext hrest⟩
  | case6 token next rest hvalue ih =>
      obtain ⟨visits, hrest⟩ := ih (before + 1) state hstate
      exact ⟨visits, .token hvalue hrest⟩

theorem askFor_run (tree : FileTree) (path : Path) (state : Inclusions) :
    (askFor tree path).run state =
      if tree.identify path ∈ state.seen then (false, state)
      else (true, ⟨tree.identify path :: state.seen, state.opened⟩) := by
  by_cases hseen : tree.identify path ∈ state.seen
  · rw [if_pos hseen]
    simp [askFor, hseen]
    rfl
  · rw [if_neg hseen]
    simp [askFor, hseen]
    rfl

/-- What a file stands for that has been asked for already. -/
theorem expandFile_repeated (depth : Nat) {path : Path} (location : Location) {state : Inclusions}
    (hseen : tree.identify path ∈ state.seen) :
    (expandFile tree (depth + 1) path location).run state = (.empty, state) := by
  rw [expandFile, StateT.run_bind, askFor_run, if_pos hseen]
  rfl

/-- What a file stands for that is opened. -/
theorem expandFile_opened (depth : Nat) {path : Path} (location : Location) {state : Inclusions}
    (hnew : tree.identify path ∉ state.seen) :
    (expandFile tree (depth + 1) path location).run state =
      match tree.read path with
      | .ok bytes =>
          (expandReading (expandFile tree depth) path.directory (.ofBytes path.text bytes)).run
            (state.ask tree path)
      | .error cause => (.ofError (.inclusion path cause) location, state.ask tree path) := by
  rw [expandFile, StateT.run_bind, askFor_run, if_neg hnew]
  cases hread : tree.read path with
  | ok bytes =>
      simp [openFile, hread]
      rfl
  | error cause =>
      simp [openFile, hread]
      rfl

/-- A depth beyond the number of files that have not been asked for is never used up. -/
theorem expandFile_expands (depth : Nat) (path : Path) (location : Location) (state : Inclusions)
    (hstate : (tree.unseen state).card < depth) :
    ∃ visits, Expands tree (.file path location) state
      ((expandFile tree depth path location).run state).1
      ((expandFile tree depth path location).run state).2 visits := by
  induction depth generalizing path location state with
  | zero => exact absurd hstate (Nat.not_lt_zero _)
  | succ depth ih =>
      by_cases hseen : tree.identify path ∈ state.seen
      · rw [expandFile_repeated depth location hseen]
        exact ⟨[], .repeated hseen⟩
      · rw [expandFile_opened depth location hseen]
        cases hread : tree.read path with
        | error cause => exact ⟨[], .refused hseen hread⟩
        | ok bytes =>
            obtain ⟨place, htarget, -⟩ := FileTree.target_of_read hread
            have hfewer := Nat.lt_of_lt_of_le (FileTree.card_unseen_ask hseen hread)
              (Nat.le_of_lt_succ hstate)
            simp only [expandReading]
            cases htokens : (Reading.ofBytes path.text bytes).tokens with
            | error errors => exact ⟨[], .faulty hseen hread htokens⟩
            | ok tokens =>
                obtain ⟨visits, h⟩ :=
                  expandTokens_expands ih (some place) path.directory 0 tokens _ hfewer
                exact ⟨visits, .opened hseen htarget hread htokens h⟩

end Depth

/-! ## Whole expansions -/

/-- Where the tokens are missing there are errors. -/
theorem Expansion.errors_ne_nil {expansion : Expansion} {errors : List (Located LexError)}
    (h : expansion.result = .error errors) : errors ≠ [] := by
  unfold result at h
  split at h
  · cases h
  next hsome =>
    cases h
    intro hnone
    apply hsome
    rw [hnone]
    rfl

theorem Expansion.tokens_eq_of_result {expansion : Expansion} {tokens : List (Located Token)}
    (h : expansion.result = .ok tokens) : expansion.tokens = tokens := by
  unfold result at h
  split at h
  next => exact Except.ok.inj h
  next => cases h

namespace FileTree

/-- The expansion of a file follows its inclusions without a bound. -/
theorem expandRoot_expands (tree : FileTree) (root : Path) :
    ∃ visits, Expands tree (.file root (.startOf root.text)) ⟨[], []⟩ (tree.expandRoot root).1
      (tree.expandRoot root).2 visits := by
  apply expandFile_expands
  have hcard := tree.card_unseen_le ⟨[], []⟩
  rw [inclusionDepth]
  omega

/-- The expansion of text in no file follows its inclusions without a bound, unless its own tokens
are missing. -/
theorem expandText_expands (tree : FileTree) (name : String) (text : ByteArray) (directory : Path) :
    (∃ errors, (Reading.ofBytes name text).tokens = .error errors ∧
      tree.expandText name text directory = (⟨[], errors⟩, ⟨[], []⟩)) ∨
    ∃ own visits, (Reading.ofBytes name text).tokens = .ok own ∧
      Expands tree (.tokens none directory 0 own) ⟨[], []⟩ (tree.expandText name text directory).1
        (tree.expandText name text directory).2 visits := by
  have hdepth : (tree.unseen ⟨[], []⟩).card < tree.inclusionDepth :=
    Nat.lt_succ_of_le (tree.card_unseen_le ⟨[], []⟩)
  rw [expandText, expandReading]
  cases htokens : (Reading.ofBytes name text).tokens with
  | error errors => exact .inl ⟨errors, rfl, rfl⟩
  | ok own =>
      obtain ⟨visits, hexpands⟩ := expandTokens_expands
        (expandFile_expands tree.inclusionDepth) none directory 0 own ⟨[], []⟩ hdepth
      exact .inr ⟨own, visits, rfl, hexpands⟩

/-- What text in no file stands for follows its inclusions without a bound, unless it has no
tokens. -/
theorem textTokens_expands (tree : FileTree) {name : String} {text : ByteArray} {directory : Path}
    {tokens : List (Located Token)} (h : tree.textTokens name text directory = .ok tokens) :
    tokens = [] ∨ ∃ own expansion after visits, (Reading.ofBytes name text).tokens = .ok own ∧
      Expands tree (.tokens none directory 0 own) ⟨[], []⟩ expansion after visits ∧
      expansion.tokens = tokens := by
  rw [textTokens] at h
  obtain ⟨errors, -, hexpands⟩ | ⟨own, visits, htokens, hexpands⟩ :=
    tree.expandText_expands name text directory
  · rw [hexpands] at h
    exact .inl (Expansion.tokens_eq_of_result h).symm
  · exact .inr ⟨own, _, _, visits, htokens, hexpands, Expansion.tokens_eq_of_result h⟩

end FileTree

end AccumulatorC
