import AccumulatorC.CommandLine

/-!
# The program

Runs the command line on the files of the system. Which files a compilation needs is
found by compiling: every path that it asks for and that has not been looked at yet
is looked at, and the compilation is repeated until it asks for nothing new.
-/

namespace AccumulatorC

/-- The text of a path that leads to a place. -/
def placeText (place : Place) : String := "/" ++ "/".intercalate place

/-- The places that a path names on its way, and what it leads to when double dots
are taken literally. -/
def placesOnTheWay (tree : FileTree) (path : Path) : List Place :=
  let step (places : List Place × Place) (name : String) : List Place × Place :=
    if name = "" ∨ name = "." then places
    else
      let next := if name = ".." then places.2.dropLast else places.2 ++ [name]
      (next :: places.1, next)
  (path.segments.foldl step ([], tree.base path)).1

/-- The place that a text names when it starts at the root. -/
def placeOfText (text : String) : Place := (Path.mk text).segments.filter (· ≠ "")

/-- The place that links at a place lead to, which is the place itself if there are none. -/
def realPlace (place : Place) : IO Place := do
  try
    return placeOfText (← IO.FS.realPath (placeText place)).toString
  catch _ => return place

/-- Adds an entry to a tree. -/
def addEntry (tree : FileTree) (place : Place) (entry : FileEntry) : FileTree :=
  { tree with entries := (place, entry) :: tree.entries }

/-- Looks at a place that is no link and adds what is there to the tree. Reading tells a
directory from a place where there is nothing. -/
def observeReal (tree : FileTree) (place : Place) : IO FileTree := do
  if (tree.content? place).isSome || tree.isDirectory place then return tree
  try
    return tree.store place (← IO.FS.readBinFile (placeText place))
  catch
    | .inappropriateType .. => return addEntry tree place .directory
    | .permissionDenied .. =>
        return addEntry (tree.store place ByteArray.empty) place (.denied .read)
    | _ => return tree

/-- Looks at a place and, if there is a link, at the place that it leads to. -/
def observe (tree : FileTree) (place : Place) : IO FileTree := do
  let real ← realPlace place
  let tree ← observeReal tree real
  if real = place || (tree.link? place).isSome then return tree
  return addEntry tree place (.link ⟨placeText real⟩)

/-- The paths that an invocation asks for among the files of a tree. -/
def pathsAskedFor (tree : FileTree) (invocation : Invocation) : List Path :=
  match invocation.input with
  | some input =>
      (tree.expandRoot ⟨input⟩).2.opened ++ (outputPath ⟨input⟩ invocation.output).toList
  | none => []

/-- Adds to a tree what an invocation asks for, until nothing new is asked for. -/
partial def gather (invocation : Invocation) (tree : FileTree) (seen : List Path) :
    IO FileTree := do
  let fresh := (pathsAskedFor tree invocation).filter (· ∉ seen)
  if fresh.isEmpty then return tree
  let tree ← (fresh.flatMap (placesOnTheWay tree)).foldlM observe tree
  gather invocation tree (fresh ++ seen)

/-- Writes the file of a run, and tells what the run leaves if the system refuses it. -/
def writeOutput (tree : FileTree) (arguments : List String) (outcome : Outcome) :
    IO (Option Outcome) := do
  let some (path, content) := outcome.written | return some outcome
  try
    IO.FS.writeBinFile path.text content
    return some outcome
  catch
    | .permissionDenied .. => refused .permissionDenied
    | .inappropriateType .. => refused .isDirectory
    | _ => refused .notFound
where
  refused (cause : FileError) : IO (Option Outcome) :=
    let host : Host := { Host.plain with file := fun _ _ => .cut 0 cause.message }
    return host.finish tree arguments

/-- The names on the way to the current directory. -/
def currentPlace : IO Place := do
  return placeOfText (← IO.currentDir).toString

end AccumulatorC

open AccumulatorC

/-- Runs the arguments and ends with the exit code of the run. A run without an end does
not wait for it. -/
def main (arguments : List String) : IO UInt32 := do
  let empty : FileTree := ⟨← currentPlace, [], []⟩
  let tree ← match Host.plain.understand arguments with
    | .request invocation => gather invocation empty []
    | _ => pure empty
  let some outcome := Host.plain.finish tree arguments
    | (← IO.getStderr).putStr (Breakdown.endless.message ++ "\n")
      return 101
  let some outcome ← writeOutput tree arguments outcome | return 101
  (← IO.getStderr).putStr outcome.stderr
  (← IO.getStdout).putStr outcome.stdout
  return UInt32.ofNat outcome.code
