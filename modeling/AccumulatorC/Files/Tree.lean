import AccumulatorC.Files.Path

/-!
# A tree of files

Files are known by the names that lead to them from the root; a directory exists
when something lies below it or when it is listed. A path is followed one step at a
time from the root or the working directory, and every step before the last must
lead to an existing directory, also one that a double dot leaves again. A symbolic
link stands for the path that it holds. A file can have further names, and what is
written under one of them is read under all.
-/

namespace AccumulatorC

/-- Why a file cannot be opened or read. -/
inductive FileError
  | notFound
  | permissionDenied
  | notDirectory
  | isDirectory
  | nameTooLong
  | tooManyLinks
  | nulInName
  deriving DecidableEq, Repr

/-- What the system says about a file that cannot be opened or read. -/
def FileError.message : FileError → String
  | .notFound => "No such file or directory (os error 2)"
  | .permissionDenied => "Permission denied (os error 13)"
  | .notDirectory => "Not a directory (os error 20)"
  | .isDirectory => "Is a directory (os error 21)"
  | .nameTooLong => "File name too long (os error 36)"
  | .tooManyLinks => "Too many levels of symbolic links (os error 40)"
  | .nulInName => "file name contained an unexpected NUL byte"

/-- The names that lead from the root to a file or directory. -/
abbrev Place := List String

/-- What can be forbidden at a place. -/
inductive Right
  /-- To go on from a directory. -/
  | enter
  | read
  | write
  deriving DecidableEq, Repr

/-- What a place is known for, apart from the content of a file. -/
inductive FileEntry
  | directory
  /-- A symbolic link. -/
  | link (path : Path)
  /-- A further name of the file that is kept at another place. -/
  | name (kept : Place)
  | denied (right : Right)
  deriving DecidableEq, Repr

namespace FileEntry

/-- The path that a link stands for. -/
def path? : FileEntry → Option Path
  | link path => some path
  | _ => none

/-- The place of the file that a further name is for. -/
def kept? : FileEntry → Option Place
  | name kept => some kept
  | _ => none

/-- The directories that exist because there is an entry at a place. -/
def directories (place : Place) : FileEntry → List Place
  | directory => [place]
  | name kept => [place.dropLast, kept.dropLast]
  | link _ | denied _ => [place.dropLast]

end FileEntry

/-- Files with their contents, what else is known of places, and the directory in
which relative paths start. -/
structure FileTree where
  workingDirectory : Place
  entries : List (Place × FileEntry)
  files : List (Place × ByteArray)

/-- What a path leads to. A vacant place has an existing directory but no entry
there. -/
inductive Target
  | file (place : Place)
  | directory (place : Place)
  | vacant (place : Place)
  deriving DecidableEq, Repr

namespace FileTree

/-- The longest name of a single step, in bytes. -/
def nameLimit : Nat := 255

/-- The first length of a whole path, in bytes, that cannot be opened. -/
def pathLimit : Nat := 4096

/-- The most links that are followed on one way. -/
def linkLimit : Nat := 40

/-- What is known of a place. -/
def entriesAt (tree : FileTree) (place : Place) : List FileEntry :=
  (tree.entries.filter (·.1 = place)).map (·.2)

/-- The path that stands at a place instead of a file. -/
def link? (tree : FileTree) (place : Place) : Option Path :=
  (tree.entriesAt place).findSome? FileEntry.path?

/-- Where the file is kept that is known by a place. -/
def kept (tree : FileTree) (place : Place) : Place :=
  ((tree.entriesAt place).findSome? FileEntry.kept?).getD place

/-- The content of the file at a place. -/
def content? (tree : FileTree) (place : Place) : Option ByteArray :=
  (tree.files.find? fun file => file.1 == tree.kept place).map (·.2)

/-- What is done at a place, unless it is forbidden there. -/
def permit {α : Type} (tree : FileTree) (right : Right) (place : Place)
    (result : Except FileError α) : Except FileError α :=
  if .denied right ∈ tree.entriesAt place then .error .permissionDenied else result

/-- Whether a place is a directory. -/
def isDirectory (tree : FileTree) (place : Place) : Bool :=
  place.isEmpty || place.isPrefixOf tree.workingDirectory ||
    (tree.entries.any fun entry => (entry.2.directories entry.1).any place.isPrefixOf) ||
    tree.files.any fun file => place.isPrefixOf file.1.dropLast

/-- Where the first step of a path is taken that is seen from a directory. -/
def origin (path : Path) (directory : Place) : Place := if path.isAbsolute then [] else directory

/-- Follows steps from a directory up to a link, and from there on `again`. -/
def followFrom (tree : FileTree) (again : Place → List String → Except FileError Target) :
    Place → List String → Except FileError Target
  | current, [] => .ok (.directory current)
  | current, step :: rest =>
      if step = "" then followFrom tree again current rest
      else if .denied .enter ∈ tree.entriesAt current then .error .permissionDenied
      else if step = "." then followFrom tree again current rest
      else if step = ".." then followFrom tree again current.dropLast rest
      else if step.utf8ByteSize > nameLimit then .error .nameTooLong
      else
        let next := current ++ [step]
        if tree.isDirectory next then followFrom tree again next rest
        else match tree.link? next with
          | some path => again (origin path current) (path.segments ++ rest)
          | none =>
              match tree.content? next, rest with
              | some _, [] => .ok (.file next)
              | some _, _ :: _ => .error .notDirectory
              | none, [] => .ok (.vacant next)
              | none, _ :: _ => .error .notFound

/-- Follows steps from a directory and over so many links. -/
def followWithin (tree : FileTree) : Nat → Place → List String → Except FileError Target
  | 0 => tree.followFrom fun _ _ => .error .tooManyLinks
  | links + 1 => tree.followFrom (tree.followWithin links)

/-- Follows steps from a directory. -/
def follow (tree : FileTree) : Place → List String → Except FileError Target :=
  tree.followWithin linkLimit

/-- Where the first step of a path is taken. -/
def base (tree : FileTree) (path : Path) : Place := origin path tree.workingDirectory

/-- Why a text is no path at all. -/
def malformation (path : Path) : Option FileError :=
  if '\x00' ∈ path.text.toList then some .nulInName
  else if path.text = "" then some .notFound
  else none

/-- Why a path cannot be opened, whatever it leads to. -/
def refusal (path : Path) : Option FileError :=
  match malformation path with
  | some cause => some cause
  | none => if path.text.utf8ByteSize ≥ pathLimit then some .nameTooLong else none

/-- What a path leads to. It is resolved one step at a time, however long it is. -/
def resolve (tree : FileTree) (path : Path) : Except FileError Target :=
  match malformation path with
  | some cause => .error cause
  | none => tree.follow (tree.base path) path.segments

/-- What is opened under a path. -/
def target (tree : FileTree) (path : Path) : Except FileError Target :=
  match refusal path with
  | some cause => .error cause
  | none => tree.resolve path

/-- Reads the file that a path leads to. A directory can be opened like a file, but
then every attempt to read it fails. -/
def read (tree : FileTree) (path : Path) : Except FileError ByteArray :=
  match tree.target path with
  | .error cause => .error cause
  | .ok (.file place) =>
      tree.permit .read (tree.kept place) (.ok ((tree.content? place).getD ByteArray.empty))
  | .ok (.directory place) => tree.permit .read place (.error .isDirectory)
  | .ok (.vacant _) => .error .notFound

/-- Gives the file at a place a content, in front of what was there. -/
def store (tree : FileTree) (place : Place) (content : ByteArray) : FileTree :=
  { tree with
    files := (tree.kept place, content) ::
      tree.files.filter fun file => file.1 != tree.kept place }

/-- Where a file that is written under a path will be. A trailing slash asks for a
directory, so only the steps before the last one are followed then. -/
def destination (tree : FileTree) (path : Path) : Except FileError Place :=
  match refusal path with
  | some cause => .error cause
  | none =>
      let names := path.segments.filter (· ≠ "")
      if path.endsWithSlash then
        match tree.follow (tree.base path) names.dropLast with
        | .error cause => .error cause
        | .ok (.directory _) => .error .isDirectory
        | .ok (.file _) => .error .notDirectory
        | .ok (.vacant _) => .error .notFound
      else
        match tree.follow (tree.base path) names with
        | .error cause => .error cause
        | .ok (.directory _) => .error .isDirectory
        | .ok (.file place) => tree.permit .write (tree.kept place) (.ok place)
        | .ok (.vacant place) => tree.permit .write place.dropLast (.ok place)

/-- Writes a file. -/
def write (tree : FileTree) (path : Path) (content : ByteArray) : Except FileError FileTree :=
  (tree.destination path).map (tree.store · content)

/-- What a path stands for when two spellings of it are compared: the place of
what it leads to, and the spelling itself when it leads nowhere. -/
inductive Identity
  | existing (place : Place)
  | spelled (identity : Bool × List String)
  deriving DecidableEq, Repr

/-- The identity of a path, also of one that is too long to be opened. -/
def identify (tree : FileTree) (path : Path) : Identity :=
  match tree.resolve path with
  | .ok (.file place) | .ok (.directory place) => .existing place
  | _ => .spelled path.identity

end FileTree

end AccumulatorC
