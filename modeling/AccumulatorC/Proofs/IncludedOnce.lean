import AccumulatorC.Proofs.Token.Expanding
import AccumulatorC.Proofs.Token.Values

/-!
# Files are included once

Every file is opened once at most, whatever paths lead to it and however files include one another,
and a directive for a file that has been opened stands for nothing: without it, the rest of the source
stands for the same tokens.
-/

namespace AccumulatorC

/-! ## Files that have been opened -/

/-- All that has been opened has been noted, and no two paths for one file. -/
structure Inclusions.Noted (tree : FileTree) (state : Inclusions) : Prop where
  noted : ∀ path ∈ state.opened, tree.identify path ∈ state.seen
  distinct : (state.opened.map tree.identify).Nodup

/-- The file that is opened under a path, if there is one. -/
def FileTree.opens? (tree : FileTree) (path : Path) : Option Place :=
  match tree.target path with
  | .ok (.file place) => some place
  | _ => none

/-- What a path opens is the file that it leads to. -/
theorem FileTree.opens?_eq_some {tree : FileTree} {path : Path} {place : Place} :
    tree.opens? path = some place ↔ tree.target path = .ok (.file place) := by
  unfold opens?
  split
  next found hfound => simp [hfound]
  next hother => simpa using hother place

section Noted

variable {tree : FileTree} {stretch : Stretch} {state after : Inclusions} {expansion : Expansion}
  {visits : List Visit}

theorem Inclusions.Noted.ask (h : state.Noted tree) {path : Path}
    (hnew : tree.identify path ∉ state.seen) : (state.ask tree path).Noted tree where
  noted := List.forall_mem_cons.mpr
    ⟨List.mem_cons_self, fun path hmem => List.mem_cons_of_mem _ (h.noted path hmem)⟩
  distinct := by
    refine List.nodup_cons.mpr ⟨fun hmem => ?_, h.distinct⟩
    obtain ⟨earlier, hearlier, hsame⟩ := List.mem_map.mp hmem
    exact hnew (hsame ▸ h.noted earlier hearlier)

theorem Expands.noted (h : Expands tree stretch state expansion after visits)
    (hstate : state.Noted tree) : after.Noted tree := by
  induction h with
  | repeated | nil | bare => exact hstate
  | refused hnew | faulty hnew => exact hstate.ask hnew
  | opened hnew _ _ _ _ ih => exact ih (hstate.ask hnew)
  | token _ _ ih | pathless _ _ _ ih => exact ih hstate
  | inclusion _ _ _ _ ihfile ihrest => exact ihrest (ihfile hstate)

/-- No file has been opened twice. -/
theorem Inclusions.Noted.places_nodup (h : state.Noted tree) :
    (state.opened.filterMap tree.opens?).Nodup := by
  apply List.pairwise_filterMap.mpr
  apply (List.pairwise_map.mp h.distinct).imp
  intro first second hne place hfirst place' hsecond hsame
  apply hne
  rw [FileTree.identify_of_target (FileTree.opens?_eq_some.mp hfirst),
    FileTree.identify_of_target (FileTree.opens?_eq_some.mp hsecond), hsame]

end Noted

/-! ## Without a directive -/

/-- Tokens in which every directive has the token that is its path, so that the next token is none
of a directive. -/
inductive Whole : List Token → Prop
  | nil : Whole []
  | token {token : Token} {rest : List Token} (hvalue : token ≠ .inclusion) (hrest : Whole rest) :
      Whole (token :: rest)
  | directive {next : Token} {rest : List Token} (hrest : Whole rest) :
      Whole (.inclusion :: next :: rest)

/-- The file at a place is made of the tokens `front`, a directive for the path `name` and the tokens
`back`, and a new content for it of these tokens without the directive. -/
structure FileTree.Deletes (tree : FileTree) (place : Place) (content' : ByteArray)
    (front : List Token) (name : List UInt8) (back : List Token) : Prop where
  before : ∃ content, tree.content? place = some content ∧
    readValues content = .ok (front ++ .inclusion :: .string name :: back)
  whole : Whole front
  after : readValues content' = .ok (front ++ back)

/-- The directive asks for a file that has been opened already. -/
def Visit.Repeated (tree : FileTree) (visit : Visit) : Prop :=
  ∃ place, tree.resolve visit.path = .ok (.file place) ∧
    ∃ earlier ∈ visit.opened, tree.target earlier = .ok (.file place)

/-- A directive that is repeated leads to a file that was noted before. -/
theorem Visit.Repeated.identify_mem {tree : FileTree} {visit : Visit} (h : visit.Repeated tree)
    {state : Inclusions} (hstate : state.Noted tree) (hopened : visit.opened = state.opened) :
    tree.identify visit.path ∈ state.seen := by
  obtain ⟨found, hresolve, earlier, hmem, htarget⟩ := h
  have hseen := hstate.noted earlier (hopened ▸ hmem)
  rw [FileTree.identify_of_target htarget] at hseen
  rwa [FileTree.identify, hresolve]

/-- Tokens and errors without their places. -/
def Expansion.values (expansion : Expansion) : List Token × List LexError :=
  (expansion.tokens.map (·.value), expansion.errors.map (·.value))

theorem Expansion.values_append {first second first' second' : Expansion}
    (hfirst : first.values = first'.values) (hsecond : second.values = second'.values) :
    (first ++ second).values = (first' ++ second').values := by
  obtain ⟨htokens, herrors⟩ := Prod.mk.inj hfirst
  obtain ⟨htokens', herrors'⟩ := Prod.mk.inj hsecond
  have happend : ∀ left right : Expansion, (left ++ right).values =
      (left.tokens.map (·.value) ++ right.tokens.map (·.value),
        left.errors.map (·.value) ++ right.errors.map (·.value)) := by
    intro left right
    exact Prod.ext List.map_append List.map_append
  rw [happend, happend, htokens, herrors, htokens', herrors']

/-- Two stretches are alike, except that in one file, whatever name it is known by, the tokens `front`
are followed by a directive in the first one and not in the second. -/
inductive Lacks (tree : FileTree) (place : Place) (front : List Token) (name : List UInt8)
    (back : List Token) : Stretch → Stretch → Prop
  | file (path : Path) (location location' : Location) :
      Lacks tree place front name back (.file path location) (.file path location')
  | same {owner : Option Place} {before before' : Nat} {tokens tokens' : List (Located Token)}
      (directory : Path) (hvalues : tokens.map (·.value) = tokens'.map (·.value))
      (hbeyond : owner.map tree.kept = some (tree.kept place) → front.length < before) :
      Lacks tree place front name back (.tokens owner directory before tokens)
        (.tokens owner directory before' tokens')
  | front {owner : Option Place} {before before' : Nat} {tokens tokens' : List (Located Token)}
      {rest : List Token} (directory : Path)
      (howner : owner.map tree.kept = some (tree.kept place))
      (htokens : tokens.map (·.value) = rest ++ .inclusion :: .string name :: back)
      (htokens' : tokens'.map (·.value) = rest ++ back)
      (hbefore : before + rest.length = front.length) (hwhole : Whole rest) :
      Lacks tree place front name back (.tokens owner directory before tokens)
        (.tokens owner directory before' tokens')

namespace Lacks

variable {tree : FileTree} {place : Place} {front back : List Token} {name : List UInt8}
  {owner : Option Place} {directory : Path} {before : Nat} {token next : Located Token} {rest : List (Located Token)}
  {stretch : Stretch}

/-- A token that is no directive stands in both stretches. -/
theorem plain
    (h : Lacks tree place front name back (.tokens owner directory before (token :: rest)) stretch)
    (hvalue : token.value ≠ .inclusion) :
    ∃ before' token' rest', stretch = .tokens owner directory before' (token' :: rest') ∧
      token'.value = token.value ∧
      Lacks tree place front name back (.tokens owner directory (before + 1) rest)
        (.tokens owner directory (before' + 1) rest') := by
  cases h with
  | same _ hvalues hbeyond =>
      obtain ⟨token', rest', rfl, htoken, hrest⟩ := List.map_eq_cons_iff.mp hvalues.symm
      exact ⟨_, token', rest', rfl, htoken,
        .same _ hrest.symm fun howner => Nat.lt_succ_of_lt (hbeyond howner)⟩
  | front _ howner htokens htokens' hbefore hwhole =>
      cases hwhole with
      | nil => exact absurd (List.cons.inj htokens).1 hvalue
      | directive => exact absurd (List.cons.inj htokens).1 hvalue
      | token _ hwhole =>
          obtain ⟨hfirst, htokens⟩ := List.cons.inj htokens
          obtain ⟨token', rest', rfl, htoken, hrest⟩ := List.map_eq_cons_iff.mp htokens'
          refine ⟨_, token', rest', rfl, htoken.trans hfirst.symm, .front _ howner htokens hrest ?_ hwhole⟩
          rw [← hbefore, List.length_cons]
          omega

/-- A directive at the end stands in both stretches. -/
theorem bare (h : Lacks tree place front name back (.tokens owner directory before [token]) stretch) :
    ∃ before' token', stretch = .tokens owner directory before' [token'] ∧
      token'.value = token.value := by
  cases h with
  | same _ hvalues _ =>
      obtain ⟨token', rfl, htoken⟩ := List.map_eq_singleton_iff.mp hvalues.symm
      exact ⟨_, token', rfl, htoken⟩
  | front _ _ htokens =>
      have hlength := congrArg List.length htokens
      simp only [List.map_singleton, List.length_append, List.length_cons,
        List.length_nil] at hlength
      omega

/-- A directive stands in both stretches, unless it is the one that the second lacks. -/
theorem directive
    (h : Lacks tree place front name back (.tokens owner directory before (token :: next :: rest)) stretch)
    (hvalue : token.value = .inclusion) :
    (∃ before' token' next' rest',
      stretch = .tokens owner directory before' (token' :: next' :: rest') ∧
      token'.value = token.value ∧ next'.value = next.value ∧
      Lacks tree place front name back (.tokens owner directory (before + 2) rest)
        (.tokens owner directory (before' + 2) rest')) ∨
    (owner.map tree.kept = some (tree.kept place) ∧ before = front.length ∧
      next.value = .string name ∧
      Lacks tree place front name back (.tokens owner directory (before + 2) rest) stretch) := by
  cases h with
  | same _ hvalues hbeyond =>
      obtain ⟨token', later, rfl, htoken, hlater⟩ := List.map_eq_cons_iff.mp hvalues.symm
      obtain ⟨next', rest', rfl, hnext, hrest⟩ := List.map_eq_cons_iff.mp hlater
      refine .inl ⟨_, token', next', rest', rfl, htoken, hnext, .same _ hrest.symm fun howner => ?_⟩
      exact Nat.lt_add_right 2 (hbeyond howner)
  | front _ howner htokens htokens' hbefore hwhole =>
      cases hwhole with
      | token hother => exact absurd ((List.cons.inj htokens).1.symm.trans hvalue) hother
      | nil =>
          obtain ⟨-, htokens⟩ := List.cons.inj htokens
          obtain ⟨hnext, hrest⟩ := List.cons.inj htokens
          have hfront : before = front.length := hbefore
          refine .inr ⟨howner, hfront, hnext, .same _ (hrest.trans htokens'.symm) fun _ => ?_⟩
          omega
      | directive hwhole =>
          obtain ⟨hfirst, htokens⟩ := List.cons.inj htokens
          obtain ⟨hsecond, htokens⟩ := List.cons.inj htokens
          obtain ⟨token', later, rfl, htoken, hlater⟩ := List.map_eq_cons_iff.mp htokens'
          obtain ⟨next', rest', rfl, hnext, hrest⟩ := List.map_eq_cons_iff.mp hlater
          refine .inl ⟨_, token', next', rest', rfl, htoken.trans hfirst.symm,
            hnext.trans hsecond.symm, .front _ howner htokens hrest ?_ hwhole⟩
          rw [← hbefore, List.length_cons, List.length_cons]
          omega

end Lacks

section Without

variable {tree : FileTree} {place : Place} {content' : ByteArray} {front back : List Token}
  {name : List UInt8}

namespace FileTree.Deletes

variable (hdeletes : tree.Deletes place content' front name back)
include hdeletes

theorem mem : tree.kept place ∈ tree.files.map (·.1) := by
  obtain ⟨content, hcontent, -⟩ := hdeletes.before
  exact kept_mem_of_content? hcontent

theorem identify_eq (path : Path) :
    (tree.store place content').identify path = tree.identify path :=
  identify_store hdeletes.mem path

theorem target_eq (path : Path) : (tree.store place content').target path = tree.target path :=
  target_store hdeletes.mem path

theorem read_of_error {path : Path} {cause : FileError} (hread : tree.read path = .error cause) :
    (tree.store place content').read path = .error cause := read_store_of_error hdeletes.mem hread

theorem ask_eq (path : Path) (state : Inclusions) :
    state.ask (tree.store place content') path = state.ask tree path := by
  rw [Inclusions.ask, hdeletes.identify_eq, Inclusions.ask]

/-- A file with errors is another one, and stays as it is. -/
theorem read_of_errors {path : Path} {bytes : ByteArray} {errors : List (Located LexError)}
    (hread : tree.read path = .ok bytes)
    (herrors : (Reading.ofBytes path.text bytes).tokens = .error errors) :
    (tree.store place content').read path = .ok bytes := by
  obtain ⟨other, htarget, hother⟩ := target_of_read hread
  rw [read_store_of_target hdeletes.mem htarget hread, if_neg]
  intro hsame
  obtain ⟨content, hcontent, hvalues⟩ := hdeletes.before
  rw [← content?_congr hsame] at hcontent
  cases hcontent.symm.trans hother
  rw [← Reading.values_ofBytes path.text, herrors] at hvalues
  cases hvalues

/-- A file that is opened gives the same tokens, but for the directive. -/
theorem exists_lacks {path : Path} {other : Place} {bytes : ByteArray}
    {tokens : List (Located Token)} (htarget : tree.target path = .ok (.file other))
    (hread : tree.read path = .ok bytes)
    (htokens : (Reading.ofBytes path.text bytes).tokens = .ok tokens) :
    ∃ bytes' tokens', (tree.store place content').read path = .ok bytes' ∧
      (Reading.ofBytes path.text bytes').tokens = .ok tokens' ∧
      Lacks tree place front name back (.tokens (some other) path.directory 0 tokens)
        (.tokens (some other) path.directory 0 tokens') := by
  rw [read_store_of_target hdeletes.mem htarget hread]
  by_cases hother : tree.kept other = tree.kept place
  · obtain ⟨content, hcontent, hvalues⟩ := hdeletes.before
    rw [← content?_congr hother] at hcontent
    obtain ⟨found, hfound, hbytes⟩ := target_of_read hread
    cases htarget.symm.trans hfound
    cases hcontent.symm.trans hbytes
    rw [← Reading.values_ofBytes path.text, htokens] at hvalues
    have hafter := hdeletes.after
    rw [← Reading.values_ofBytes path.text, tokenValues_eq_ok] at hafter
    obtain ⟨tokens', htokens', hvalues'⟩ := hafter
    refine ⟨content', tokens', if_pos hother, htokens', ?_⟩
    exact .front _ (congrArg some hother) (Except.ok.inj hvalues) hvalues' (Nat.zero_add _) hdeletes.whole
  · refine ⟨bytes, tokens, if_neg hother, htokens, ?_⟩
    exact .same _ rfl fun hsame => absurd (Option.some.inj hsame) hother

end FileTree.Deletes

/-- A directive that stands for nothing can be left out: what a stretch stands for stays the same. -/
theorem Expands.without {stretch stretch' : Stretch} {state after : Inclusions}
    {expansion : Expansion} {visits : List Visit}
    (hdeletes : tree.Deletes place content' front name back)
    (h : Expands tree stretch state expansion after visits) (hstate : state.Noted tree)
    (hrepeated : ∀ visit ∈ visits, visit.owner.map tree.kept = some (tree.kept place) →
      visit.before = front.length → visit.Repeated tree)
    (hlacks : Lacks tree place front name back stretch stretch') :
    ∃ expansion' visits',
      Expands (tree.store place content') stretch' state expansion' after visits' ∧
        expansion'.values = expansion.values := by
  induction h generalizing stretch' with
  | @repeated path location state hseen =>
      cases hlacks with
      | file _ _ location' => exact ⟨_, _, .repeated (hdeletes.identify_eq path ▸ hseen), rfl⟩
  | @refused path location state cause hnew hread =>
      cases hlacks with
      | file _ _ location' =>
          refine ⟨.ofError (.inclusion path cause) location', [], ?_, rfl⟩
          rw [← hdeletes.ask_eq]
          exact .refused (hdeletes.identify_eq path ▸ hnew) (hdeletes.read_of_error hread)
  | @faulty path location state bytes errors hnew hread herrors =>
      cases hlacks with
      | file _ _ location' =>
          refine ⟨_, [], ?_, rfl⟩
          rw [← hdeletes.ask_eq]
          exact .faulty (hdeletes.identify_eq path ▸ hnew) (hdeletes.read_of_errors hread herrors) herrors
  | @opened path location state after other bytes tokens expansion visits hnew htarget hread
      htokens _ ih =>
      cases hlacks with
      | file _ _ location' =>
          obtain ⟨bytes', tokens', hread', htokens', hlacks⟩ :=
            hdeletes.exists_lacks htarget hread htokens
          obtain ⟨expansion', visits', h', hsame⟩ := ih (hstate.ask hnew) hrepeated hlacks
          rw [← hdeletes.ask_eq] at h'
          have htarget' := (hdeletes.target_eq path).trans htarget
          exact ⟨expansion', visits', .opened (hdeletes.identify_eq path ▸ hnew) htarget' hread'
            htokens' h', hsame⟩
  | nil =>
      cases hlacks with
      | same _ hvalues =>
          obtain rfl := List.map_eq_nil_iff.mp hvalues.symm
          exact ⟨_, _, .nil, rfl⟩
      | front _ _ htokens => simp at htokens
  | @token owner directory before token rest state after expansion visits hvalue _ ih =>
      obtain ⟨_, token', rest', rfl, htoken, hlacks⟩ := hlacks.plain hvalue
      obtain ⟨expansion', visits', h', hsame⟩ := ih hstate hrepeated hlacks
      refine ⟨_, _, .token (htoken ▸ hvalue) h', Expansion.values_append ?_ hsame⟩
      rw [Expansion.values, Expansion.values, Expansion.ofToken, Expansion.ofToken,
        List.map_singleton, List.map_singleton, htoken]
  | @bare owner directory before token state hvalue =>
      obtain ⟨_, token', rfl, htoken⟩ := hlacks.bare
      exact ⟨_, _, .bare (htoken.trans hvalue), rfl⟩
  | @pathless owner directory before token next rest state after expansion visits hvalue hnext _ ih =>
      rcases hlacks.directive hvalue with
        ⟨_, token', next', rest', rfl, htoken, hpath, hlacks⟩ | ⟨-, -, hstring, -⟩
      · obtain ⟨expansion', visits', h', hsame⟩ := ih hstate hrepeated hlacks
        exact ⟨_, _, .pathless (htoken.trans hvalue) (hpath ▸ hnext) h',
          Expansion.values_append rfl hsame⟩
      · exact absurd hstring (hnext name)
  | @inclusion owner directory before token next bytes rest state middle after included expansion
      visits later hvalue hnext hfile hrest ihfile ihrest =>
      obtain ⟨hown, hothers⟩ := List.forall_mem_cons.mp hrepeated
      obtain ⟨hvisits, hlater⟩ := List.forall_mem_append.mp hothers
      rcases hlacks.directive hvalue with
        ⟨_, token', next', rest', rfl, htoken, hpath, hlacks⟩ | ⟨howner, hbefore, -, hlacks⟩
      · obtain ⟨included', visits', hfile', hsame⟩ :=
          ihfile hstate hvisits (.file _ _ token'.location)
        obtain ⟨expansion', later', hrest', hsame'⟩ := ihrest (hfile.noted hstate) hlater hlacks
        exact ⟨_, _, .inclusion (htoken.trans hvalue) (hpath.trans hnext) hfile' hrest',
          Expansion.values_append hsame hsame'⟩
      · -- This is the directive: its file has been asked for, so that it stands for nothing.
        have hseen := (hown howner hbefore).identify_mem hstate rfl
        obtain ⟨rfl, rfl, -⟩ := hfile.unique (.repeated hseen)
        obtain ⟨expansion', later', hrest', hsame⟩ := ihrest hstate hlater hlacks
        exact ⟨expansion', later', hrest', hsame⟩

end Without

/-! ## Files with all that they include -/

namespace FileTree

theorem tokenValues_eq_of_values {tree tree' : FileTree} {root : Path}
    (h : (tree.expandRoot root).1.values = (tree'.expandRoot root).1.values) :
    tokenValues (tree.tokens root) = tokenValues (tree'.tokens root) := by
  obtain ⟨htokens, herrors⟩ := Prod.mk.inj h
  have hempty : (tree.expandRoot root).1.errors.isEmpty = (tree'.expandRoot root).1.errors.isEmpty := by
    rw [← List.isEmpty_map, herrors, List.isEmpty_map]
  unfold tokens Expansion.result
  rw [hempty]
  split
  · exact congrArg Except.ok htokens
  · exact congrArg Except.error herrors

/-- Files are included once. The expansion of a file follows the inclusions to an end, whatever files
include one another; no file is opened twice; and when a directive asks for files that have been
opened, wherever it is reached, the file that it stands in may lose it: then there are the same
tokens or the same errors. -/
theorem tokens_included_once (tree : FileTree) (root : Path) :
    ∃ visits, Expands tree (.file root (.startOf root.text)) ⟨[], []⟩ (tree.expandRoot root).1
        (tree.expandRoot root).2 visits ∧
      ((tree.expandRoot root).2.opened.filterMap tree.opens?).Nodup ∧
      ∀ (place : Place) (content' : ByteArray) (front back : List Token) (name : List UInt8),
        tree.Deletes place content' front name back →
        (∀ visit ∈ visits, visit.owner.map tree.kept = some (tree.kept place) →
          visit.before = front.length → visit.Repeated tree) →
        tokenValues ((tree.store place content').tokens root) = tokenValues (tree.tokens root) := by
  obtain ⟨visits, h⟩ := tree.expandRoot_expands root
  have hinitial : Inclusions.Noted tree ⟨[], []⟩ := ⟨nofun, .nil⟩
  refine ⟨visits, h, (h.noted hinitial).places_nodup, ?_⟩
  intro place content' front back name hdeletes hrepeated
  obtain ⟨expansion, visits', h', hvalues⟩ :=
    h.without hdeletes hinitial hrepeated (.file root _ (.startOf root.text))
  obtain ⟨found, hfound⟩ := (tree.store place content').expandRoot_expands root
  apply tokenValues_eq_of_values
  rw [(hfound.unique h').1, hvalues]

/-! ### Two files in a circle -/

/-- Two files that include one another; the second one also includes itself. -/
def circle : FileTree where
  workingDirectory := []
  entries := []
  files := [(["main.c"], "#include \"a.h\"\nx".toUTF8),
    (["a.h"], "#include \"./main.c\"\n#include \"a.h\"".toUTF8)]

/-- The name of the second file. -/
def circleName : List UInt8 := "a.h".toUTF8.toList

/-- The name of the first file as the second one spells it. -/
def circleRootName : List UInt8 := "./main.c".toUTF8.toList

/-- The second file without the directive for the first one. -/
def circleContent : ByteArray := "#include \"a.h\"".toUTF8

theorem circle_deletes :
    circle.Deletes ["a.h"] circleContent [] circleRootName [.inclusion, .string circleName] where
  before :=
    ⟨"#include \"./main.c\"\n#include \"a.h\"".toUTF8, by decide +kernel, by decide +kernel⟩
  whole := .nil
  after := by decide +kernel

/-- The path of the second file where the first one asks for it. -/
def circleOther : Path := (Path.directory ⟨"main.c"⟩).join (.ofBytes circleName)

/-- What has been asked for where the second file begins. -/
def circleState : Inclusions := .ask circle circleOther (.ask circle ⟨"main.c"⟩ ⟨[], []⟩)

/-- The directives of both files are reached, and only the first one of them opens a file. -/
theorem circle_expands : ∃ expansion,
    Expands circle (.file ⟨"main.c"⟩ (.startOf "main.c")) ⟨[], []⟩ expansion circleState
      [⟨some ["main.c"], 0, circleOther, [⟨"main.c"⟩]⟩,
        ⟨some ["a.h"], 0, circleOther.directory.join (.ofBytes circleRootName), circleState.opened⟩,
        ⟨some ["a.h"], 2, circleOther.directory.join (.ofBytes circleName), circleState.opened⟩] := by
  have hvalues : tokenValues (Reading.ofBytes "main.c" "#include \"a.h\"\nx".toUTF8).tokens =
      .ok [.inclusion, .string circleName, .identifier "x"] := by decide +kernel
  have hvalues' : tokenValues (Reading.ofBytes circleOther.text
      "#include \"./main.c\"\n#include \"a.h\"".toUTF8).tokens =
      .ok [.inclusion, .string circleRootName, .inclusion, .string circleName] := by decide +kernel
  obtain ⟨tokens, htokens, hmap⟩ := tokenValues_eq_ok.mp hvalues
  obtain ⟨tokens', htokens', hmap'⟩ := tokenValues_eq_ok.mp hvalues'
  simp only [List.map_eq_cons_iff, List.map_eq_nil_iff] at hmap hmap'
  obtain ⟨first, _, rfl, hfirst, path, _, rfl, hpath, last, _, rfl, hlast, rfl⟩ := hmap
  obtain ⟨one, _, rfl, hone, rootPath, _, rfl, hroot, two, _, rfl, htwo, ownPath, _, rfl, hown, rfl⟩ :=
    hmap'
  have hrootSeen : circle.identify (circleOther.directory.join (.ofBytes circleRootName)) ∈
      circleState.seen := by decide +kernel
  have hownSeen : circle.identify (circleOther.directory.join (.ofBytes circleName)) ∈
      circleState.seen := by decide +kernel
  have htarget : circle.target circleOther = .ok (.file ["a.h"]) := by decide +kernel
  have hother : Expands circle (.file circleOther first.location) (.ask circle ⟨"main.c"⟩ ⟨[], []⟩) _
      circleState _ :=
    .opened (by decide +kernel) htarget (by decide +kernel) htokens'
      (.inclusion hone hroot (.repeated hrootSeen) (.inclusion htwo hown (.repeated hownSeen) .nil))
  have hplain : last.value ≠ .inclusion := by
    rw [hlast]
    exact nofun
  exact ⟨_, .opened (by decide +kernel) (by decide +kernel) (by decide +kernel) htokens
    (.inclusion hfirst hpath hother (.token hplain .nil))⟩

/-- The second file may lose its directive for the first one. -/
theorem circle_included_once :
    circle.Deletes ["a.h"] circleContent [] circleRootName [.inclusion, .string circleName] ∧
      tokenValues ((circle.store ["a.h"] circleContent).tokens ⟨"main.c"⟩) =
        tokenValues (circle.tokens ⟨"main.c"⟩) := by
  obtain ⟨visits, h, -, hdelete⟩ := circle.tokens_included_once ⟨"main.c"⟩
  obtain ⟨_, hcircle⟩ := circle_expands
  obtain ⟨-, -, rfl⟩ := h.unique hcircle
  refine ⟨circle_deletes, hdelete _ _ _ _ _ circle_deletes ?_⟩
  intro visit hmem howner hbefore
  simp only [List.mem_cons, List.not_mem_nil, or_false] at hmem
  rcases hmem with rfl | rfl | rfl
  · exact absurd howner (by decide)
  · exact ⟨["main.c"], by decide +kernel, ⟨"main.c"⟩, by decide +kernel, by decide +kernel⟩
  · cases hbefore

end FileTree

end AccumulatorC
