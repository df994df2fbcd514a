import Mathlib.Data.List.Infix
import AccumulatorC.Files.Tree

/-!
# Opening and writing files

What a path leads to in a tree of files, and what a file that is written changes: it gets a new
content under all its names, and everything else stays as it is, the directories too, since a file is
only ever written where there is a directory for it.
-/

namespace AccumulatorC

namespace FileTree

variable {tree : FileTree} {path : Path} {place directory other : Place} {content : ByteArray}
  {again : Place → List String → Except FileError Target}

/-! ## Following steps over links -/

/-- What holds of the steps up to a link, if it holds of those behind the link, holds of all. -/
theorem follow_induction {holds : Place → List String → Except FileError Target → Prop}
    (hlimit : ∀ current steps, holds current steps (.error .tooManyLinks))
    (hfrom : ∀ again, (∀ current steps, holds current steps (again current steps)) →
      ∀ current steps, holds current steps (tree.followFrom again current steps))
    (current : Place) (steps : List String) : holds current steps (tree.follow current steps) := by
  rw [follow]
  generalize linkLimit = links
  induction links generalizing current steps with
  | zero => exact hfrom _ hlimit current steps
  | succ links ih => exact hfrom _ ih current steps

theorem follow_eq_followFrom :
    tree.follow = tree.followFrom (tree.followWithin (linkLimit - 1)) := rfl

@[simp] theorem follow_nil (current : Place) :
    tree.follow current [] = .ok (.directory current) := by rw [follow_eq_followFrom, followFrom]

@[simp] theorem follow_empty (current : Place) (rest : List String) :
    tree.follow current ("" :: rest) = tree.follow current rest := by
  rw [follow_eq_followFrom, followFrom, if_pos rfl]

/-- A tree without symbolic links. -/
def Unlinked (tree : FileTree) : Prop := ∀ entry ∈ tree.entries, entry.2.path? = none

theorem Unlinked.link?_eq_none (h : tree.Unlinked) (place : Place) : tree.link? place = none := by
  refine List.findSome?_eq_none_iff.mpr fun entry hmem => ?_
  obtain ⟨listed, hlisted, rfl⟩ := List.mem_map.mp hmem
  exact h listed (List.mem_of_mem_filter hlisted)

/-- Without links, nothing is left to be followed from them. -/
theorem Unlinked.follow_eq (h : tree.Unlinked)
    (again : Place → List String → Except FileError Target) :
    tree.follow = tree.followFrom again := by
  have hsame : ∀ other, tree.followFrom other = tree.followFrom again := by
    intro other
    funext current steps
    induction steps generalizing current with
    | nil => rfl
    | cons step rest ih => simp only [followFrom, ih, h.link?_eq_none]
  exact hsame _

/-! ## What opening a file finds -/

theorem content?_of_follow {current : Place} {steps : List String}
    (h : tree.follow current steps = .ok (.file place)) :
    ∃ bytes, tree.content? place = some bytes := by
  revert h
  refine @follow_induction tree (fun _ _ result => result = .ok (.file place) →
    ∃ bytes, tree.content? place = some bytes) (fun _ _ => nofun) ?_ current steps
  intro again hagain current steps h
  fun_induction followFrom tree again current steps with
  | case2 _ _ ih | case4 _ _ _ _ ih | case5 _ _ _ _ _ ih => exact ih h
  | case7 _ _ _ _ _ _ _ _ _ _ ih => exact ih h
  | case8 => exact hagain _ _ h
  | case9 current step _ _ _ _ _ next hdirectory hlink bytes hcontent =>
      obtain rfl : next = place := by simpa using h
      exact ⟨bytes, hcontent⟩
  | case1 | case3 | case6 | case10 | case11 | case12 => cases h

theorem resolve_of_target {target : Target} (h : tree.target path = .ok target) :
    tree.resolve path = .ok target := by
  unfold FileTree.target at h
  split at h
  next => cases h
  next => exact h

theorem content?_of_target (h : tree.target path = .ok (.file place)) :
    ∃ bytes, tree.content? place = some bytes := by
  have hresolve := resolve_of_target h
  unfold resolve at hresolve
  split at hresolve
  next => cases hresolve
  next => exact content?_of_follow hresolve

theorem identify_of_target (h : tree.target path = .ok (.file place)) :
    tree.identify path = .existing place := by
  rw [identify, resolve_of_target h]

theorem permit_eq_ok {α : Type} {right : Right} {result : Except FileError α} {value : α} :
    tree.permit right place result = .ok value ↔
      .denied right ∉ tree.entriesAt place ∧ result = .ok value := by
  by_cases hdenied : .denied right ∈ tree.entriesAt place <;> simp [permit, hdenied]

/-- A file that can be read is one of the tree. -/
theorem target_of_read {bytes : ByteArray} (h : tree.read path = .ok bytes) :
    ∃ place, tree.target path = .ok (.file place) ∧ tree.content? place = some bytes := by
  unfold read at h
  split at h
  next => cases h
  next place htarget =>
    obtain ⟨content, hcontent⟩ := content?_of_target htarget
    obtain ⟨-, hbytes⟩ := permit_eq_ok.mp h
    rw [hcontent] at hbytes
    cases hbytes
    exact ⟨place, htarget, hcontent⟩
  next => cases (permit_eq_ok.mp h).2
  next => cases h

theorem allowed_of_read {bytes : ByteArray} (htarget : tree.target path = .ok (.file place))
    (h : tree.read path = .ok bytes) : .denied .read ∉ tree.entriesAt (tree.kept place) := by
  unfold read at h
  rw [htarget] at h
  exact (permit_eq_ok.mp h).1

theorem kept_mem_of_content? {bytes : ByteArray} (h : tree.content? place = some bytes) :
    tree.kept place ∈ tree.files.map (·.1) := by
  obtain ⟨file, hfile, -⟩ := Option.map_eq_some_iff.mp h
  have hplace : file.1 = tree.kept place := by simpa using List.find?_some hfile
  exact hplace ▸ List.mem_map_of_mem (List.mem_of_find?_eq_some hfile)

/-- All names of a file lead to one content. -/
theorem content?_congr (h : tree.kept other = tree.kept place) :
    tree.content? other = tree.content? place := by rw [content?, content?, h]

/-- A file is kept at the place that it is known by, unless that is a further name of it. -/
theorem kept_eq_or_mem (tree : FileTree) (place : Place) :
    tree.kept place = place ∨ (place, .name (tree.kept place)) ∈ tree.entries := by
  rw [kept]
  cases hfound : (tree.entriesAt place).findSome? FileEntry.kept? with
  | none => exact .inl rfl
  | some other =>
      right
      obtain ⟨entry, hmem, hentry⟩ := List.exists_of_findSome?_eq_some hfound
      obtain ⟨⟨listed, found⟩, hlisted, rfl⟩ := List.mem_map.mp hmem
      obtain ⟨hmember, hplace⟩ := List.mem_filter.mp hlisted
      obtain rfl : listed = place := of_decide_eq_true hplace
      cases found with
      | name kept =>
          obtain rfl : kept = other := by simpa [FileEntry.kept?] using hentry
          simpa using hmember
      | directory | link | denied => cases hentry

/-- All places that a tree says something about. -/
def places (tree : FileTree) : List Place := tree.files.map (·.1) ++ tree.entries.map (·.1)

theorem mem_places_of_content? {bytes : ByteArray} (h : tree.content? place = some bytes) :
    place ∈ tree.places := by
  rcases tree.kept_eq_or_mem place with hkept | hname
  · exact List.mem_append_left _ (hkept ▸ kept_mem_of_content? h)
  · exact List.mem_append_right _ (List.mem_map_of_mem (f := (·.1)) hname)

/-! ## Directories -/

/-- What makes a place a directory. -/
theorem isDirectory_iff : tree.isDirectory directory = true ↔
    directory = [] ∨ directory <+: tree.workingDirectory ∨
      (∃ entry ∈ tree.entries, ∃ inside ∈ entry.2.directories entry.1, directory <+: inside) ∨
      ∃ file ∈ tree.files, directory <+: file.1.dropLast := by
  simp only [isDirectory, Bool.or_eq_true, List.isEmpty_iff, List.any_eq_true,
    List.isPrefixOf_iff_prefix, or_assoc]

/-- A directory lies in directories only. -/
theorem isDirectory_of_prefix (h : tree.isDirectory directory = true)
    (hbelow : other <+: directory) :
    tree.isDirectory other = true := by
  rw [isDirectory_iff] at h ⊢
  rcases h with rfl | h | ⟨entry, hmem, inside, hinside, h⟩ | ⟨file, hmem, h⟩
  · exact .inl (List.prefix_nil.mp hbelow)
  · exact .inr (.inl (hbelow.trans h))
  · exact .inr (.inr (.inl ⟨entry, hmem, inside, hinside, hbelow.trans h⟩))
  · exact .inr (.inr (.inr ⟨file, hmem, hbelow.trans h⟩))

theorem isDirectory_dropLast (h : tree.isDirectory directory = true) :
    tree.isDirectory directory.dropLast = true :=
  isDirectory_of_prefix h (List.dropLast_prefix directory)

/-- A file lies in a directory. -/
theorem isDirectory_of_mem (h : place ∈ tree.files.map (·.1)) :
    tree.isDirectory place.dropLast = true := by
  obtain ⟨file, hmem, rfl⟩ := List.mem_map.mp h
  exact isDirectory_iff.mpr (.inr (.inr (.inr ⟨file, hmem, List.prefix_refl _⟩)))

/-- So it does under its other names. -/
theorem isDirectory_kept (h : tree.isDirectory place.dropLast = true) :
    tree.isDirectory (tree.kept place).dropLast = true := by
  rcases tree.kept_eq_or_mem place with hkept | hname
  · rwa [hkept]
  · refine isDirectory_iff.mpr (.inr (.inr (.inl ⟨_, hname, _, ?_, List.prefix_refl _⟩)))
    exact List.mem_cons_of_mem _ List.mem_cons_self

theorem isDirectory_root (tree : FileTree) : tree.isDirectory [] = true :=
  isDirectory_iff.mpr (.inl rfl)

theorem isDirectory_origin (h : tree.isDirectory directory = true) (path : Path) :
    tree.isDirectory (origin path directory) = true := by
  rw [origin]
  split
  next => exact tree.isDirectory_root
  next => exact h

theorem isDirectory_base (tree : FileTree) (path : Path) :
    tree.isDirectory (tree.base path) = true :=
  isDirectory_origin (isDirectory_iff.mpr (.inr (.inl (List.prefix_refl _)))) path

/-- A place for a file: it is no directory, but lies in one. -/
def Holds (tree : FileTree) (place : Place) : Prop :=
  tree.isDirectory place = false ∧ tree.isDirectory place.dropLast = true

/-- What is found is in its place: a directory where there is one, and a file or nothing where there is
a place for a file. -/
def Fits (tree : FileTree) : Target → Prop
  | .directory directory => tree.isDirectory directory = true
  | .file place | .vacant place => tree.Holds place

/-- Following steps from a directory leads to a directory or to a place for a file. -/
theorem fits_of_follow {current : Place} {steps : List String} {target : Target}
    (hcurrent : tree.isDirectory current = true) (h : tree.follow current steps = .ok target) :
    tree.Fits target := by
  revert hcurrent h
  refine @follow_induction tree (fun current _ result => tree.isDirectory current = true →
    result = .ok target → tree.Fits target) (fun _ _ _ => nofun) ?_ current steps
  intro again hagain current steps hcurrent h
  fun_induction followFrom tree again current steps with
  | case1 =>
      cases h
      exact hcurrent
  | case2 _ _ ih | case4 _ _ _ _ ih => exact ih hcurrent h
  | case5 _ _ _ _ _ ih => exact ih (isDirectory_dropLast hcurrent) h
  | case7 _ _ _ _ _ _ _ _ _ hnext ih => exact ih hnext h
  | case8 _ _ _ _ _ _ _ _ _ _ path => exact hagain _ _ (isDirectory_origin hcurrent path) h
  | case9 current step _ _ _ _ _ next hnone | case11 current step _ _ _ _ _ next hnone =>
      cases h
      exact ⟨by simpa using hnone, by simpa [next] using hcurrent⟩
  | case3 | case6 | case10 | case12 => cases h

/-- A file is written where the names of its path lead. -/
theorem follow_of_destination (h : tree.destination path = .ok place) :
    tree.follow (tree.base path) (path.segments.filter (· ≠ "")) = .ok (.file place) ∨
      tree.follow (tree.base path) (path.segments.filter (· ≠ "")) = .ok (.vacant place) := by
  unfold destination at h
  split at h
  next => cases h
  next =>
    dsimp only at h
    split at h
    next => split at h <;> cases h
    next =>
      split at h
      next => cases h
      next => cases h
      next hfollow =>
        cases (permit_eq_ok.mp h).2
        exact .inl hfollow
      next hfollow =>
        cases (permit_eq_ok.mp h).2
        exact .inr hfollow

/-- A file is only written where there is a directory for it. -/
theorem holds_of_destination (h : tree.destination path = .ok place) : tree.Holds place :=
  (follow_of_destination h).elim (fits_of_follow (isDirectory_base tree path))
    (fits_of_follow (isDirectory_base tree path))

/-! ## The last step -/

/-- A name of a file: neither empty nor made of dots that lead elsewhere. -/
structure Names (name : String) : Prop where
  ne_empty : name ≠ ""
  ne_dot : name ≠ "."
  ne_dots : name ≠ ".."

section Unlinked

variable (hlinks : tree.Unlinked)
include hlinks

/-- A step leads on to a directory, whatever comes behind it, or it is the last one that leads
anywhere: the name of a file, which may be vacant. -/
theorem follow_cons_cases (current : Place) (step : String) :
    (∃ next, ∀ rest, tree.follow current (step :: rest) = tree.follow next rest) ∨
      ∀ rest target, tree.follow current (step :: rest) = .ok target → rest = [] ∧ Names step ∧
        (target = .file (current ++ [step]) ∨ target = .vacant (current ++ [step])) := by
  rw [hlinks.follow_eq fun _ _ => .error .tooManyLinks]
  by_cases hempty : step = ""
  · exact .inl ⟨current, fun rest => by rw [followFrom, if_pos hempty]⟩
  by_cases henter : .denied .enter ∈ tree.entriesAt current
  · right
    intro rest target h
    rw [followFrom, if_neg hempty, if_pos henter] at h
    cases h
  by_cases hdot : step = "."
  · exact .inl ⟨current, fun rest => by
      rw [followFrom, if_neg hempty, if_neg henter, if_pos hdot]⟩
  by_cases hdots : step = ".."
  · exact .inl ⟨current.dropLast, fun rest => by
      rw [followFrom, if_neg hempty, if_neg henter, if_neg hdot, if_pos hdots]⟩
  by_cases hlong : step.utf8ByteSize > nameLimit
  · right
    intro rest target h
    rw [followFrom, if_neg hempty, if_neg henter, if_neg hdot, if_neg hdots, if_pos hlong] at h
    cases h
  by_cases hnext : tree.isDirectory (current ++ [step])
  · exact .inl ⟨current ++ [step], fun rest => by
      rw [followFrom, if_neg hempty, if_neg henter, if_neg hdot, if_neg hdots, if_neg hlong,
        if_pos hnext]⟩
  · right
    intro rest target h
    rw [followFrom, if_neg hempty, if_neg henter, if_neg hdot, if_neg hdots, if_neg hlong,
      if_neg hnext, hlinks.link?_eq_none] at h
    dsimp only at h
    split at h
    next => exact ⟨rfl, ⟨hempty, hdot, hdots⟩, .inl (Except.ok.inj h).symm⟩
    next => cases h
    next => exact ⟨rfl, ⟨hempty, hdot, hdots⟩, .inr (Except.ok.inj h).symm⟩
    next => cases h

/-- Steps that lead to a directory can be followed by others, and empty ones can be left out. -/
theorem follow_append {current : Place} {steps : List String}
    (h : tree.follow current steps = .ok (.directory directory)) (rest : List String) :
    tree.follow current (steps ++ rest) = tree.follow directory rest ∧
      tree.follow current (steps.filter (· ≠ "") ++ rest) = tree.follow directory rest := by
  induction steps generalizing current with
  | nil =>
      obtain rfl : current = directory := by simpa using h
      exact ⟨rfl, rfl⟩
  | cons step others ih =>
      obtain ⟨next, hnext⟩ | hlast := follow_cons_cases hlinks current step
      · rw [hnext] at h
        obtain ⟨hall, hkept⟩ := ih h
        refine ⟨by rw [List.cons_append, hnext, hall], ?_⟩
        by_cases hempty : step = ""
        · subst hempty
          rw [List.filter_cons_of_neg (by simp), ← follow_empty current, hnext, hkept]
        · rw [List.filter_cons_of_pos (by simp [hempty]), List.cons_append, hnext, hkept]
      · obtain ⟨-, -, hfile | hvacant⟩ := hlast _ _ h
        · cases hfile
        · cases hvacant

/-- The steps in front of others lead to a directory if all of them do. -/
theorem directory_of_follow {current : Place} {steps rest : List String}
    (h : tree.follow current (steps ++ rest) = .ok (.directory directory)) :
    ∃ before, tree.follow current steps = .ok (.directory before) := by
  induction steps generalizing current with
  | nil => exact ⟨current, follow_nil current⟩
  | cons step steps ih =>
      obtain ⟨next, hnext⟩ | hlast := follow_cons_cases hlinks current step
      · rw [List.cons_append, hnext] at h
        rw [hnext]
        exact ih h
      · obtain ⟨-, -, hfile | hvacant⟩ := hlast _ _ h
        · cases hfile
        · cases hvacant

/-- The last step that leads to a file is its name in a directory. -/
theorem last_of_follow {current : Place} {steps : List String}
    (h : tree.follow current steps = .ok (.file place)) :
    ∃ front name directory, steps = front ++ [name] ∧
      tree.follow current front = .ok (.directory directory) ∧ place = directory ++ [name] ∧
      Names name := by
  induction steps generalizing current with
  | nil => simp at h
  | cons step rest ih =>
      obtain ⟨next, hnext⟩ | hlast := follow_cons_cases hlinks current step
      · rw [hnext] at h
        obtain ⟨front, name, directory, rfl, hfront, hplace, hname⟩ := ih h
        exact ⟨step :: front, name, directory, rfl, by rwa [hnext], hplace, hname⟩
      · obtain ⟨rfl, hname, hfile | hvacant⟩ := hlast _ _ h
        · exact ⟨[], step, current, rfl, follow_nil current, Target.file.inj hfile, hname⟩
        · cases hvacant

/-- A single step to a file, which may be vacant, is its name in the directory. -/
theorem place_of_follow_single {name : String}
    (h : tree.follow directory [name] = .ok (.file place) ∨
      tree.follow directory [name] = .ok (.vacant place)) : place = directory ++ [name] := by
  obtain ⟨next, hnext⟩ | hlast := follow_cons_cases hlinks directory name
  · simp [hnext] at h
  · rcases h with h | h
    · obtain ⟨-, -, hfile | hvacant⟩ := hlast _ _ h
      · exact Target.file.inj hfile
      · cases hvacant
    · obtain ⟨-, -, hfile | hvacant⟩ := hlast _ _ h
      · cases hfile
      · exact Target.vacant.inj hvacant

end Unlinked

/-! ## Storing a file -/

@[simp] theorem entriesAt_store (other : Place) :
    (tree.store place content).entriesAt other = tree.entriesAt other := rfl

@[simp] theorem kept_store (other : Place) :
    (tree.store place content).kept other = tree.kept other := rfl

/-- A content is found under all names of its file. -/
theorem content?_store (other : Place) :
    (tree.store place content).content? other =
      if tree.kept other = tree.kept place then some content else tree.content? other := by
  rw [content?, kept_store, content?, store]
  by_cases hother : tree.kept other = tree.kept place
  · rw [if_pos hother, List.find?_cons_of_pos (by simp [hother])]
    rfl
  · rw [if_neg hother, List.find?_cons_of_neg (by simpa using Ne.symm hother), List.find?_filter]
    congr 2
    funext file
    by_cases hfile : file.1 = tree.kept other
    · simp [hfile, hother]
    · simp [hfile]

/-- Storing a file in a directory makes no other directories. -/
theorem isDirectory_store (hparent : tree.isDirectory (tree.kept place).dropLast = true)
    (directory : Place) :
    (tree.store place content).isDirectory directory = tree.isDirectory directory := by
  rw [Bool.eq_iff_iff]
  constructor
  · intro h
    rcases isDirectory_iff.mp h with h | h | h | ⟨file, hmem, hbelow⟩
    · exact isDirectory_iff.mpr (.inl h)
    · exact isDirectory_iff.mpr (.inr (.inl h))
    · exact isDirectory_iff.mpr (.inr (.inr (.inl h)))
    · rcases List.mem_cons.mp hmem with rfl | hmem
      · exact isDirectory_of_prefix hparent hbelow
      · have hfile := List.mem_map_of_mem (f := (·.1)) (List.mem_of_mem_filter hmem)
        exact isDirectory_of_prefix (isDirectory_of_mem hfile) hbelow
  · intro h
    rcases isDirectory_iff.mp h with h | h | h | ⟨file, hmem, hbelow⟩
    · exact isDirectory_iff.mpr (.inl h)
    · exact isDirectory_iff.mpr (.inr (.inl h))
    · exact isDirectory_iff.mpr (.inr (.inr (.inl h)))
    · refine isDirectory_iff.mpr (.inr (.inr (.inr ?_)))
      by_cases hsame : file.1 = tree.kept place
      · exact ⟨(tree.kept place, content), List.mem_cons_self, hsame ▸ hbelow⟩
      · exact ⟨file, List.mem_cons_of_mem _ (List.mem_filter.mpr ⟨hmem, by simpa using hsame⟩),
          hbelow⟩

/-- One file has got a content, which is read under all its names, and everything else is as it
was. -/
structure OnlyWrites (before after : FileTree) (place : Place) (content : ByteArray) : Prop where
  written : after.content? place = some content
  others : ∀ other, before.kept other ≠ before.kept place →
    after.content? other = before.content? other
  directories : ∀ directory, after.isDirectory directory = before.isDirectory directory
  entries : after.entries = before.entries

theorem Holds.onlyWrites (h : tree.Holds place) (content : ByteArray) :
    tree.OnlyWrites (tree.store place content) place content where
  written := by rw [content?_store, if_pos rfl]
  others other hother := by rw [content?_store, if_neg hother]
  directories := isDirectory_store (isDirectory_kept h.2)
  entries := rfl

/-! ### In the place of another one -/

section Replacing

variable (hplace : tree.kept place ∈ tree.files.map (·.1))
include hplace

theorem isSome_content?_store (other : Place) :
    ((tree.store place content).content? other).isSome = (tree.content? other).isSome := by
  rw [content?_store]
  split
  next heq =>
    obtain ⟨file, hmem, hfile⟩ := List.mem_map.mp hplace
    have hfound : (tree.files.find? fun file => file.1 == tree.kept other).isSome = true := by
      rw [List.find?_isSome]
      exact ⟨file, hmem, by simp [hfile, heq]⟩
    rw [content?, Option.isSome_map, hfound]
    rfl
  next => rfl

/-- A link leads where it led before the file was written. -/
theorem followFrom_store (again : Place → List String → Except FileError Target) (current : Place)
    (steps : List String) :
    (tree.store place content).followFrom again current steps =
      tree.followFrom again current steps := by
  induction steps generalizing current with
  | nil => rfl
  | cons step rest ih =>
      have hsome : ((tree.store place content).content? (current ++ [step])).isSome =
          (tree.content? (current ++ [step])).isSome := isSome_content?_store hplace _
      simp only [followFrom, ih, isDirectory_store (isDirectory_of_mem hplace), link?,
        entriesAt_store]
      -- Whether there is a file at a place is the same in both trees.
      cases hcontent : tree.content? (current ++ [step]) with
      | none =>
          rw [hcontent, Option.isSome_none, Option.isSome_eq_false_iff,
            Option.isNone_iff_eq_none] at hsome
          simp only [hsome]
      | some bytes =>
          rw [hcontent, Option.isSome_some] at hsome
          obtain ⟨other, hother⟩ := Option.isSome_iff_exists.mp hsome
          simp only [hother]
          cases rest <;> rfl

theorem follow_store : (tree.store place content).follow = tree.follow := by
  have hwithin : ∀ links, (tree.store place content).followWithin links = tree.followWithin links := by
    intro links
    induction links with
    | zero =>
        funext current steps
        exact followFrom_store hplace _ current steps
    | succ links ih =>
        funext current steps
        rw [followWithin, ih]
        exact followFrom_store hplace _ current steps
  exact hwithin linkLimit

theorem resolve_store (path : Path) :
    (tree.store place content).resolve path = tree.resolve path := by
  unfold resolve
  rw [follow_store hplace]
  rfl

theorem target_store (path : Path) :
    (tree.store place content).target path = tree.target path := by
  rw [FileTree.target, FileTree.target, resolve_store hplace]

theorem identify_store (path : Path) :
    (tree.store place content).identify path = tree.identify path := by
  rw [identify, identify, resolve_store hplace]

theorem read_store_of_error {path : Path} {cause : FileError} (h : tree.read path = .error cause) :
    (tree.store place content).read path = .error cause := by
  unfold read at h ⊢
  rw [target_store hplace]
  split at h
  next => exact h
  next =>
    rw [permit] at h ⊢
    split at h
    next hdenied => rw [kept_store, entriesAt_store, if_pos hdenied, h]
    next => cases h
  next => exact h
  next => exact h

/-- What is read instead of a file that can be read. -/
theorem read_store_of_target {path : Path} {other : Place} {bytes : ByteArray}
    (h : tree.target path = .ok (.file other)) (hread : tree.read path = .ok bytes) :
    (tree.store place content).read path =
      if tree.kept other = tree.kept place then .ok content else .ok bytes := by
  unfold read at hread ⊢
  rw [target_store hplace, h]
  rw [h] at hread
  obtain ⟨hallowed, hbytes⟩ := permit_eq_ok.mp hread
  simp only [permit, entriesAt_store, kept_store, if_neg hallowed, content?_store]
  split
  next => rfl
  next => exact hbytes

end Replacing

end FileTree

end AccumulatorC
