import AccumulatorC.Proofs.Files.Extension

/-!
# Files beside others

A path that is taken from the directory of a file leads to the same file however the path of the first
one is spelled: the text of a path without its last step leads to the directory that the file lies in.
-/

namespace AccumulatorC

/-! ## The text of a directory -/

/-- Cutting a path loses nothing but its slashes. -/
theorem mem_cutAtSlashes {chars : List Char} {c : Char} (hc : c ≠ '/') :
    c ∈ chars ↔ ∃ piece ∈ cutAtSlashes chars, c ∈ piece := by
  induction chars with
  | nil => simp [cutAtSlashes]
  | cons first rest ih =>
      rw [cutAtSlashes_eq, List.splitOn_cons_eq_if_modifyHead, ← cutAtSlashes_eq]
      by_cases hfirst : first = '/'
      · simp [hfirst, hc, ih]
      · cases hpieces : cutAtSlashes rest with
        | nil =>
            rw [cutAtSlashes_eq] at hpieces
            exact absurd hpieces (List.splitOn_ne_nil '/' rest)
        | cons piece more => simp [hfirst, ih, hpieces, or_assoc]

namespace Path

variable {path name : Path} {front : List String} {last : String}

theorem segments_ne_nil (path : Path) : path.segments ≠ [] := by
  rw [segments, cutAtSlashes_eq]
  simp

/-- Apart from slashes, a path has the characters of its segments. -/
theorem mem_text {c : Char} (hc : c ≠ '/') :
    c ∈ path.text.toList ↔ ∃ segment ∈ path.segments, c ∈ segment.toList := by
  rw [mem_cutAtSlashes hc, segments]
  simp

theorem segments_slash (first second : String) :
    (⟨first ++ "/" ++ second⟩ : Path).segments =
      (⟨first⟩ : Path).segments ++ (⟨second⟩ : Path).segments := by
  have htext : (first ++ "/" ++ second).toList = first.toList ++ '/' :: second.toList := by simp
  simp only [segments, htext, cutAtSlashes_eq, List.splitOn_append_cons_self, List.map_append]

/-- What is dropped names nothing, and something is kept: a step, or the first segment. -/
theorem dropBlank_spec {segments : List String} (hne : segments ≠ []) :
    ∃ blanks kept rest, segments = blanks ++ kept :: rest ∧ dropBlank segments = kept :: rest ∧
      (∀ blank ∈ blanks, isStep blank = false) ∧ (isStep kept = true ∨ rest = []) := by
  fun_induction dropBlank segments with
  | case1 => exact absurd rfl hne
  | case2 first => exact ⟨[], first, [], rfl, rfl, List.forall_mem_nil _, .inr rfl⟩
  | case3 last rest _ hstep => exact ⟨[], last, rest, rfl, rfl, List.forall_mem_nil _, .inl hstep⟩
  | case4 last rest hrest hstep ih =>
      obtain ⟨blanks, kept, more, heq, hdrop, hblanks, hkept⟩ := ih hrest
      refine ⟨last :: blanks, kept, more, by rw [heq]; rfl, hdrop, ?_, hkept⟩
      exact List.forall_mem_cons.mpr ⟨by simpa using hstep, hblanks⟩

/-- A path ends with a slash if its last segment is empty and not the only one. -/
theorem endsWithSlash_eq_true (h : path.endsWithSlash = true) :
    ∃ front, front ≠ [] ∧ path.segments = front ++ [""] := by
  obtain ⟨front, hfront⟩ := List.getLast?_eq_some_iff.mp (of_decide_eq_true h)
  refine ⟨(front.splitOn '/').map String.ofList, by simp, ?_⟩
  rw [segments, cutAtSlashes_eq, hfront, List.splitOn_append_cons_self, List.map_append]
  rfl

/-- A directory whose last segment names something, or is a dot and the only one, has a slash put
behind it. -/
theorem segments_join_of_kept {directory : Path} {rest : List String} {kept : String}
    (h : directory.segments = rest ++ [kept]) (hkept : isStep kept = true ∨ rest = [])
    (hroot : ¬ (kept = "" ∧ rest = [])) (hrelative : name.isAbsolute = false) :
    (directory.join name).segments = rest ++ [kept] ++ name.segments := by
  have htext : directory.text ≠ "" := by
    intro htext
    have hnone : rest ++ [kept] = [""] := by
      rw [← h, segments, htext]
      rfl
    rcases List.append_eq_singleton_iff.mp hnone with ⟨rfl, hempty⟩ | ⟨-, hnil⟩
    · exact hroot ⟨by simpa using hempty, rfl⟩
    · cases hnil
  have hslash : directory.endsWithSlash = false := by
    rw [Bool.eq_false_iff]
    intro hslash
    obtain ⟨others, hothers, heq⟩ := endsWithSlash_eq_true hslash
    obtain ⟨rfl, hempty⟩ := List.append_inj' (h.symm.trans heq) rfl
    obtain rfl : kept = "" := by simpa using hempty
    rcases hkept with hstep | rfl
    · cases hstep
    · exact hothers rfl
  rw [join, if_neg (by simp [hrelative]), if_neg (by simp [htext, hslash]), segments_slash, h]

/-- From the directory of a path that ends in a step: the segments before the step come first, without
those at their end that name nothing. -/
theorem segments_join (h : path.segments = front ++ [last]) (hlast : isStep last = true)
    (hrelative : name.isAbsolute = false) :
    ∃ kept blanks, front = kept ++ blanks ∧ (kept = [] → front = []) ∧
      (∀ blank ∈ blanks, isStep blank = false) ∧
      (path.directory.join name).segments = kept ++ name.segments := by
  have hreverse : path.segments.reverse = last :: front.reverse := by simp [h]
  have hempty : last ≠ "" := by
    rintro rfl
    cases hlast
  rcases List.eq_nil_or_concat front with rfl | ⟨before, own, rfl⟩
  · have hdirectory : path.directory = ⟨""⟩ := by
      rw [directory, parent, hreverse, List.reverse_nil, dropBlank]
      simp [hempty]
    refine ⟨[], [], rfl, fun _ => rfl, List.forall_mem_nil _, ?_⟩
    rw [hdirectory, join, if_neg (by simp [hrelative]), if_pos (.inl rfl), String.empty_append]
    rfl
  · rw [List.concat_eq_append] at hreverse ⊢
    rw [List.reverse_append, List.reverse_singleton, List.singleton_append] at hreverse
    obtain ⟨blanks, kept, rest, hfront, hdrop, hblanks, hkept⟩ :=
      dropBlank_spec (List.cons_ne_nil own before.reverse)
    have hfront' : before ++ [own] = (rest.reverse ++ [kept]) ++ blanks.reverse := by
      rw [← List.reverse_reverse (before ++ [own]), List.reverse_append, List.reverse_singleton,
        List.singleton_append, hfront]
      simp
    refine ⟨rest.reverse ++ [kept], blanks.reverse, hfront', by simp, fun blank hmem =>
      hblanks blank (List.mem_reverse.mp hmem), ?_⟩
    by_cases hroot : kept = "" ∧ rest = []
    · obtain ⟨rfl, rfl⟩ := hroot
      have hdirectory : path.directory = ⟨"" ++ "/"⟩ := by
        rw [directory, parent, hreverse, dropBlank_of_isStep hlast]
        simp only [hdrop]
        rfl
      rw [hdirectory, join, if_neg (by simp [hrelative]), if_pos (.inr (by decide)), segments_slash]
      rfl
    · have hdirectory : path.directory = ofSegments (rest.reverse ++ [kept]) := by
        rw [directory, parent, hreverse, dropBlank_of_isStep hlast]
        simp only [hdrop]
        split
        next heq => simp_all
        next => simp
      refine segments_join_of_kept ?_ (hkept.imp_right (by simp)) (by simpa using hroot) hrelative
      rw [hdirectory]
      apply segments_ofSegments (by simp)
      intro segment hmem
      have hpath : segment ∈ path.segments := by
        rw [h, List.concat_eq_append, hfront']
        exact List.mem_append_left _ (List.mem_append_left _ hmem)
      exact slash_not_mem hpath

end Path

/-! ## Where paths from a directory lead -/

namespace FileTree

variable {tree : FileTree} {path path' name : Path} {place other directory : Place}

/-- A path leads to a file if its segments do and no character ends it early. -/
theorem resolve_eq_file :
    tree.resolve path = .ok (.file place) ↔ '\x00' ∉ path.text.toList ∧
      tree.follow (tree.base path) path.segments = .ok (.file place) := by
  rw [resolve, malformation]
  by_cases hnul : '\x00' ∈ path.text.toList
  · simp [hnul]
  · rw [if_neg hnul]
    by_cases hempty : path.text = ""
    · have hsegments : path.segments = [""] := by
        rw [Path.segments, hempty]
        rfl
      simp [hempty, hsegments]
    · simp [hnul, hempty]

/-- Segments that name nothing lead nowhere else. -/
theorem eq_of_follow_blanks {current : Place} {blanks : List String}
    (hblanks : ∀ blank ∈ blanks, Path.isStep blank = false)
    (h : tree.follow current blanks = .ok (.directory directory)) : directory = current := by
  rw [follow_eq_followFrom] at h
  induction blanks with
  | nil => simpa [followFrom, eq_comm] using h
  | cons blank blanks ih =>
      obtain ⟨hblank, hrest⟩ := List.forall_mem_cons.mp hblanks
      by_cases hempty : blank = ""
      · rw [followFrom, if_pos hempty] at h
        exact ih hrest h
      · obtain rfl : blank = "." := by simpa [Path.isStep, hempty] using hblank
        rw [followFrom, if_neg hempty] at h
        split at h
        next => cases h
        next =>
          rw [if_pos rfl] at h
          exact ih hrest h

section Unlinked

variable (hlinks : tree.Unlinked)
include hlinks

/-- From the directory of a file a path leads where its segments lead from the place of the file. -/
theorem resolve_join_eq_file (h : tree.resolve path = .ok (.file place))
    (hrelative : name.isAbsolute = false) :
    tree.resolve (path.directory.join name) = .ok (.file other) ↔
      '\x00' ∉ name.text.toList ∧ tree.follow place.dropLast name.segments = .ok (.file other) := by
  obtain ⟨hnul, hfollow⟩ := resolve_eq_file.mp h
  obtain ⟨front, last, directory, hsegments, hfront, rfl, hlast⟩ := last_of_follow hlinks hfollow
  have hstep : Path.isStep last = true := by simp [Path.isStep, hlast.ne_empty, hlast.ne_dot]
  obtain ⟨kept, blanks, rfl, hkept, hblanks, hjoin⟩ :=
    Path.segments_join hsegments hstep hrelative
  -- Segments that name nothing may be left out at the end of those that lead to the directory.
  obtain ⟨before, hbefore⟩ := directory_of_follow hlinks hfront
  obtain rfl : before = directory := by
    have hall := (follow_append hlinks hbefore blanks).1
    rw [hfront] at hall
    exact (eq_of_follow_blanks hblanks hall.symm).symm
  have habsolute : (path.directory.join name).isAbsolute = path.isAbsolute := by
    rw [Bool.eq_iff_iff, Path.isAbsolute_iff, Path.isAbsolute_iff, hjoin, hsegments]
    cases kept with
    | nil =>
        obtain rfl : blanks = [] := hkept rfl
        have hname : ¬ ∃ rest, rest ≠ [] ∧ name.segments = "" :: rest := by
          rw [← Path.isAbsolute_iff, hrelative]
          exact Bool.false_ne_true
        simpa using hname
    | cons first kept => simp [Path.segments_ne_nil]
  have hcharacters : '\x00' ∈ (path.directory.join name).text.toList ↔ '\x00' ∈ name.text.toList := by
    rw [Path.mem_text (by decide), Path.mem_text (by decide), hjoin]
    rw [Path.mem_text (by decide), hsegments] at hnul
    simp only [List.mem_append, or_and_right, exists_or] at hnul ⊢
    rw [not_or, not_or] at hnul
    exact or_iff_right hnul.1.1
  have hbase : tree.base (path.directory.join name) = tree.base path := by
    rw [base, base, origin, origin, habsolute]
  rw [resolve_eq_file, hcharacters, hjoin, hbase, (follow_append hlinks hbefore _).1,
    List.dropLast_concat]

/-- However the path of a file is spelled, paths from its directory lead to the same files. -/
theorem resolve_join_congr (h : tree.resolve path = .ok (.file place))
    (h' : tree.resolve path' = .ok (.file place)) (name : Path)
    (hjoin : tree.resolve (path.directory.join name) = .ok (.file other)) :
    tree.resolve (path'.directory.join name) = .ok (.file other) := by
  cases hrelative : name.isAbsolute with
  | false =>
      rw [resolve_join_eq_file hlinks h hrelative] at hjoin
      rwa [resolve_join_eq_file hlinks h' hrelative]
  | true =>
      rw [Path.join, if_pos hrelative] at hjoin ⊢
      exact hjoin

end Unlinked

/-! ## One file under several paths -/

/-- What is identified with a file leads to the file. -/
theorem resolve_of_identify_eq (htarget : tree.target path = .ok (.file place))
    (hsame : tree.identify path' = tree.identify path) :
    tree.resolve path' = .ok (.file place) := by
  have hfollow := (resolve_eq_file.mp (resolve_of_target htarget)).2
  have hnone := (fits_of_follow (isDirectory_base tree path) hfollow).1
  rw [identify_of_target htarget, identify] at hsame
  split at hsame
  next found hfound => rw [hfound, Identity.existing.inj hsame]
  next found hfound =>
    -- A directory is not in the place of a file.
    obtain rfl := Identity.existing.inj hsame
    rw [resolve] at hfound
    split at hfound
    next => cases hfound
    next =>
      have hdirectory := fits_of_follow (isDirectory_base tree path') hfound
      rw [Fits, hnone] at hdirectory
      cases hdirectory
  next => cases hsame

/-- A file can be read under every path to it that is not too long, unless that is forbidden. -/
theorem read_of_resolve {bytes : ByteArray} (h : tree.resolve path = .ok (.file place))
    (hcontent : tree.content? place = some bytes)
    (hallowed : .denied .read ∉ tree.entriesAt (tree.kept place))
    (hshort : path.text.utf8ByteSize < pathLimit) : tree.read path = .ok bytes := by
  have hrefusal : refusal path = none := by
    rw [resolve] at h
    rw [refusal]
    split at h
    next => cases h
    next => exact if_neg (Nat.not_le.mpr hshort)
  simp only [read, target, hrefusal, h, hcontent, Option.getD_some]
  exact permit_eq_ok.mpr ⟨hallowed, rfl⟩

theorem length_lt_of_target {found : Target} (h : tree.target path = .ok found) :
    path.text.utf8ByteSize < pathLimit := by
  rw [target, refusal] at h
  by_contra hlong
  rw [if_pos (Nat.le_of_not_lt hlong)] at h
  cases hnone : malformation path <;> simp [hnone] at h

end FileTree

end AccumulatorC
