import Mathlib.Data.List.TakeWhile
import AccumulatorC.Proofs.Files.Opening

/-!
# Files under another extension

Giving a path another extension changes its last name only. So when the path leads to a file, the
new one leads to a place in the same directory, and to the same place exactly if the file had this
extension before.
-/

namespace AccumulatorC

/-! ## Segments -/

/-- Cutting at slashes is splitting a list at an element. -/
theorem cutAtSlashes_eq (chars : List Char) : cutAtSlashes chars = chars.splitOn '/' := by
  induction chars with
  | nil => rfl
  | cons c rest ih =>
      rw [List.splitOn_cons_eq_if_modifyHead, ← ih]
      by_cases hc : c = '/'
      · rw [hc]
        rfl
      · have hne : cutAtSlashes rest ≠ [] := ih ▸ List.splitOn_ne_nil '/' rest
        rw [if_neg (by simpa using hc), cutAtSlashes]
        · cases hpieces : cutAtSlashes rest with
          | nil => exact absurd hpieces hne
          | cons first more => rfl
        · exact hc

/-- There are no slashes in what is cut at them. -/
theorem not_mem_of_mem_cutAtSlashes {chars piece : List Char} (h : piece ∈ cutAtSlashes chars) :
    '/' ∉ piece := by
  induction chars generalizing piece with
  | nil =>
      obtain rfl := List.mem_singleton.mp h
      exact List.not_mem_nil
  | cons c rest ih =>
      rw [cutAtSlashes_eq, List.splitOn_cons_eq_if_modifyHead, ← cutAtSlashes_eq] at h
      split at h
      next =>
        rcases List.mem_cons.mp h with rfl | hmem
        · exact List.not_mem_nil
        · exact ih hmem
      next hc =>
        cases hpieces : cutAtSlashes rest with
        | nil =>
            rw [hpieces] at h
            exact absurd h List.not_mem_nil
        | cons first more =>
            rw [hpieces] at h ih
            rcases List.mem_cons.mp h with rfl | hmem
            · have hfirst := ih List.mem_cons_self
              intro hmem
              exact (List.mem_cons.mp hmem).elim (fun heq => hc (by simp [← heq])) hfirst
            · exact ih (List.mem_cons_of_mem _ hmem)

namespace Path

variable {path : Path} {front : List String} {name extension : String}

/-- The last name of a path has an extension: the last dot of the name stands in front of it, and
something other than a single dot in front of that. -/
def HasExtension (path : Path) (extension : String) : Prop :=
  ∃ front, front ≠ "" ∧ front ≠ "." ∧ path.segments.getLast? = some (front ++ "." ++ extension)

theorem segments_ofSegments {names : List String} (hne : names ≠ [])
    (h : ∀ name ∈ names, '/' ∉ name.toList) : (ofSegments names).segments = names := by
  have hslash : "/".toList = ['/'] := rfl
  rw [segments, ofSegments, String.toList_intercalate, cutAtSlashes_eq, hslash,
    List.splitOn_intercalate]
  · rw [List.map_map]
    exact (List.map_congr_left fun name _ => String.ofList_toList).trans (List.map_id names)
  · exact List.forall_mem_map.mpr h
  · simpa using hne

theorem slash_not_mem (h : name ∈ path.segments) : '/' ∉ name.toList := by
  obtain ⟨piece, hpiece, rfl⟩ := List.mem_map.mp h
  rw [String.toList_ofList]
  exact not_mem_of_mem_cutAtSlashes hpiece

/-- A path starts with a slash if its first segment is empty and not the only one. -/
theorem isAbsolute_iff :
    path.isAbsolute = true ↔ ∃ rest, rest ≠ [] ∧ path.segments = "" :: rest := by
  rw [isAbsolute, segments, cutAtSlashes_eq]
  cases path.text.toList with
  | nil => simp
  | cons c rest =>
      rw [List.splitOn_cons_eq_if_modifyHead]
      by_cases hc : c = '/'
      · simp [hc]
      · cases List.splitOn '/' rest with
        | nil => simp [hc]
        | cons first more => simp [hc]

/-! ## Names -/

/-- What stands in front of the last dot of a name is its stem, unless that is nothing. -/
theorem stem_of_dot {before after : List Char} (hbefore : before ≠ []) (hafter : '.' ∉ after)
    (h : name.toList = before ++ '.' :: after) : stem name = String.ofList before := by
  have hdrop : name.toList.reverse.dropWhile (· ≠ '.') = '.' :: before.reverse := by
    rw [h, List.reverse_append, List.reverse_cons, List.append_assoc,
      List.dropWhile_append_of_pos fun c hc => ?_]
    · rfl
    · have hne : c ≠ '.' := fun heq => hafter (heq ▸ List.mem_reverse.mp hc)
      simpa using hne
  rw [stem, hdrop]
  cases hreverse : before.reverse with
  | nil => exact absurd (List.reverse_eq_nil_iff.mp hreverse) hbefore
  | cons last rest =>
      have hbefore : before = (last :: rest).reverse := by rw [← hreverse, List.reverse_reverse]
      rw [hbefore]

/-- A name is its stem, or has an extension behind its last dot. -/
theorem stem_cases (name : String) : stem name = name ∨
    ∃ before after, before ≠ [] ∧ '.' ∉ after ∧ name.toList = before ++ '.' :: after := by
  cases hdrop : name.toList.reverse.dropWhile (· ≠ '.') with
  | nil =>
      left
      rw [stem, hdrop]
  | cons dot rest =>
      cases rest with
      | nil =>
          left
          rw [stem, hdrop]
      | cons last rest =>
          right
          obtain rfl : dot = '.' := by
            have hhead := List.head?_dropWhile_not (· ≠ '.') name.toList.reverse
            rw [hdrop] at hhead
            simpa using hhead
          have hparts : name.toList.reverse.takeWhile (· ≠ '.') ++ '.' :: last :: rest =
              name.toList.reverse := by
            rw [← hdrop, List.takeWhile_append_dropWhile]
          have hafter : '.' ∉ name.toList.reverse.takeWhile (· ≠ '.') := fun hmem => by
            simpa using List.mem_takeWhile_imp hmem
          generalize name.toList.reverse.takeWhile (· ≠ '.') = after at hparts hafter
          refine ⟨(last :: rest).reverse, after.reverse, by simp, by simpa using hafter, ?_⟩
          rw [← List.reverse_reverse name.toList, ← hparts]
          simp

theorem stem_ne_empty (hname : name ≠ "") : stem name ≠ "" := by
  rcases stem_cases name with hself | ⟨before, after, hbefore, hafter, hdot⟩
  · rwa [hself]
  · rw [stem_of_dot hbefore hafter hdot]
    simpa using hbefore

theorem stem_subset (name : String) : (stem name).toList ⊆ name.toList := by
  rcases stem_cases name with hself | ⟨before, after, hbefore, hafter, hdot⟩
  · rw [hself]
    exact List.Subset.refl _
  · rw [stem_of_dot hbefore hafter hdot, String.toList_ofList, hdot]
    exact List.subset_append_left _ _

theorem slash_not_mem_renamed (hname : '/' ∉ name.toList) (hextension : '/' ∉ extension.toList) :
    '/' ∉ (renamed name extension).toList := by
  rw [renamed]
  split
  next => decide
  next =>
    have hdot : ".".toList = ['.'] := rfl
    simp only [String.toList_append, hdot, List.mem_append, not_or]
    exact ⟨⟨fun hmem => hname (stem_subset name hmem), by decide⟩, hextension⟩

theorem renamed_ne_empty (name extension : String) : renamed name extension ≠ "" := by
  rw [renamed]
  split
  next => decide
  next =>
    intro h
    have hlength := congrArg String.length h
    simp at hlength

/-- A name stays the same under an extension that it has already. -/
theorem renamed_eq_self_iff (hname : name ≠ "") (hdouble : name ≠ "..")
    (hextension : '.' ∉ extension.toList) :
    renamed name extension = name ↔
      ∃ front, front ≠ "" ∧ front ≠ "." ∧ name = front ++ "." ++ extension := by
  constructor
  · intro h
    rw [renamed] at h
    split at h
    next => exact absurd h.symm hdouble
    next hstem => exact ⟨stem name, stem_ne_empty hname, hstem, h.symm⟩
  · rintro ⟨front, hfront, hdot, rfl⟩
    have hparts : (front ++ "." ++ extension).toList =
        front.toList ++ '.' :: extension.toList := by simp
    have hstem := stem_of_dot (by simpa using hfront) hextension hparts
    rw [String.ofList_toList] at hstem
    rw [renamed, hstem, if_neg hdot]

/-! ## The other path -/

theorem dropBlank_of_isStep {rest : List String} (h : isStep name = true) :
    dropBlank (name :: rest) = name :: rest := by
  cases rest with
  | nil => rfl
  | cons before rest => simp only [dropBlank, h, if_true]

/-- Another extension changes the last segment of a path only. -/
theorem segments_withExtension (h : path.segments = front ++ [name]) (hname : FileTree.Names name)
    (hextension : '/' ∉ extension.toList) :
    (path.withExtension extension).segments = front ++ [renamed name extension] := by
  have hstep : isStep name = true := by simp [isStep, hname.ne_empty, hname.ne_dot]
  have hpath : path.withExtension extension = ofSegments (front ++ [renamed name extension]) := by
    rw [withExtension, h, List.reverse_append, List.reverse_singleton, List.singleton_append,
      dropBlank_of_isStep hstep]
    simp [hname.ne_empty, hname.ne_dot, hname.ne_dots]
  rw [hpath]
  apply segments_ofSegments (by simp)
  rw [List.forall_mem_append, List.forall_mem_singleton]
  constructor
  · intro other hmem
    exact slash_not_mem (h ▸ List.mem_append_left _ hmem)
  · exact slash_not_mem_renamed (slash_not_mem (h ▸ List.mem_append_right _ List.mem_cons_self))
      hextension

theorem isAbsolute_withExtension (h : path.segments = front ++ [name]) (hname : FileTree.Names name)
    (hextension : '/' ∉ extension.toList) :
    (path.withExtension extension).isAbsolute = path.isAbsolute := by
  rw [Bool.eq_iff_iff, isAbsolute_iff, isAbsolute_iff, segments_withExtension h hname hextension, h]
  cases front with
  | nil => simp
  | cons first front => simp

end Path

namespace FileTree

variable {tree : FileTree} {input : Path} {place written : Place} {extension : String}

/-- Where a file is written that has the name of another one under another extension, if no links lead
elsewhere. -/
theorem place_of_withExtension (hlinks : tree.Unlinked)
    (htarget : tree.target input = .ok (.file place))
    (hextension : '/' ∉ extension.toList)
    (hwritten : tree.destination (input.withExtension extension) = .ok written) :
    ∃ front name directory, input.segments = front ++ [name] ∧ Names name ∧
      place = directory ++ [name] ∧ written = directory ++ [Path.renamed name extension] := by
  have hresolve := resolve_of_target htarget
  unfold resolve at hresolve
  split at hresolve
  next => cases hresolve
  next =>
    obtain ⟨front, name, directory, hsegments, hfront, hplace, hname⟩ := last_of_follow hlinks hresolve
    refine ⟨front, name, directory, hsegments, hname, hplace, ?_⟩
    have hfollow := follow_of_destination hwritten
    have hbase : tree.base (input.withExtension extension) = tree.base input := by
      rw [base, base, origin, origin, Path.isAbsolute_withExtension hsegments hname hextension]
    rw [hbase, Path.segments_withExtension hsegments hname hextension,
      List.filter_append] at hfollow
    have hkept : [Path.renamed name extension].filter (· ≠ "") = [Path.renamed name extension] :=
      List.filter_cons_of_pos (by simpa using Path.renamed_ne_empty name extension)
    rw [hkept, (follow_append hlinks hfront _).2] at hfollow
    exact place_of_follow_single hlinks hfollow

/-- A file is written in the place of another one, under whose name with another extension it is
written, exactly if that one had the extension before. -/
theorem eq_iff_hasExtension (hlinks : tree.Unlinked)
    (htarget : tree.target input = .ok (.file place))
    (hslash : '/' ∉ extension.toList) (hdot : '.' ∉ extension.toList)
    (hwritten : tree.destination (input.withExtension extension) = .ok written) :
    written = place ↔ input.HasExtension extension := by
  obtain ⟨front, name, directory, hsegments, hname, rfl, rfl⟩ :=
    place_of_withExtension hlinks htarget hslash hwritten
  rw [Path.HasExtension, hsegments, List.getLast?_append, List.getLast?_singleton]
  simp only [List.append_cancel_left_eq, List.cons.injEq, and_true, Option.some_or,
    Option.some.injEq]
  exact Path.renamed_eq_self_iff hname.ne_empty hname.ne_dots hdot

end FileTree

end AccumulatorC
