/-!
# Paths

A path is text; slashes separate its segments. Empty segments and dots name
nothing, except that a leading dot is kept, so two spellings that differ in them
alone are one path. Joining and taking the parent work on the text and leave the
spelling of what remains untouched.
-/

namespace AccumulatorC

/-- Cuts text at its slashes, which are lost. Text without a slash is one piece. -/
def cutAtSlashes : List Char → List (List Char)
  | [] => [[]]
  | '/' :: rest => [] :: cutAtSlashes rest
  | c :: rest =>
      match cutAtSlashes rest with
      | [] => [[c]]
      | first :: more => (c :: first) :: more

/-- A path as it was written. -/
structure Path where
  text : String
  deriving DecidableEq, Repr

namespace Path

/-- The text between slashes, in order. -/
def segments (path : Path) : List String := (cutAtSlashes path.text.toList).map String.ofList

/-- Segments with slashes between them. -/
def ofSegments (segments : List String) : Path := ⟨"/".intercalate segments⟩

/-- A path that starts with a slash does not depend on a directory. -/
def isAbsolute (path : Path) : Bool := path.text.toList.head? = some '/'

/-- Whether a path ends with a slash and so must lead to a directory. -/
def endsWithSlash (path : Path) : Bool := path.text.toList.getLast? = some '/'

/-- Whether a segment after the first one names something. -/
def isStep (segment : String) : Bool := segment ≠ "" && segment ≠ "."

/-- The segments that count: every name and double dot, and a dot at the very
start. -/
def steps (path : Path) : List String :=
  match path.segments with
  | [] => []
  | first :: rest => (if first = "" then [] else [first]) ++ rest.filter isStep

/-- Two spellings are one path when they agree in this. -/
def identity (path : Path) : Bool × List String := (path.isAbsolute, path.steps)

/-- A path seen from a directory; an absolute path stays as it is. -/
def join (directory path : Path) : Path :=
  if path.isAbsolute then path
  else if directory.text = "" ∨ directory.endsWithSlash then ⟨directory.text ++ path.text⟩
  else ⟨directory.text ++ "/" ++ path.text⟩

/-- Drops from reversed segments those at the end that name nothing. -/
def dropBlank : List String → List String
  | [] => []
  | [first] => [first]
  | last :: rest => if isStep last then last :: rest else dropBlank rest

/-- The path without its last step, if it has one. -/
def parent (path : Path) : Option Path :=
  match dropBlank path.segments.reverse with
  | [] => none
  | [only] => if only = "" then none else some ⟨""⟩
  | _ :: rest =>
      match dropBlank rest with
      | [""] => some ⟨"/"⟩
      | kept => some (ofSegments kept.reverse)

/-- The directory against which a file's own inclusions are resolved. -/
def directory (path : Path) : Path := path.parent.getD ⟨"."⟩

/-- A name up to its last dot, unless nothing stands before that dot. -/
def stem (name : String) : String :=
  match name.toList.reverse.dropWhile (· ≠ '.') with
  | _ :: front@(_ :: _) => String.ofList front.reverse
  | _ => name

/-- A name with another extension. The extension before it is taken away first and
leaves its dot; a double dot that is left so is no name any more, and nothing is
added to it. -/
def renamed (name extension : String) : String :=
  if stem name = "." then ".." else stem name ++ "." ++ extension

/-- The path with another extension on its last step; a path that does not end in
a name stays as it is. -/
def withExtension (path : Path) (extension : String) : Path :=
  match dropBlank path.segments.reverse with
  | last :: rest =>
      if last = "" ∨ last = "." ∨ last = ".." then path
      else ofSegments (renamed last extension :: rest).reverse
  | [] => path

end Path

end AccumulatorC
