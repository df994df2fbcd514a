import AccumulatorC.Token.Lexer

/-!
# Including files

An inclusion directive stands for the tokens of the file it names, found from the
directory of the file it stands in. A file is included once: later directives for
it, however they spell its path, stand for nothing, which also ends circles of
files that include one another.
-/

namespace AccumulatorC

/-- Which files have been asked for, and the paths that were opened, the latest
first. -/
structure Inclusions where
  seen : List FileTree.Identity
  opened : List Path

/-- What a stretch of source contributes. -/
structure Expansion where
  tokens : List (Located Token)
  errors : List (Located LexError)

namespace Expansion

/-- Nothing. -/
def empty : Expansion := ⟨[], []⟩

/-- A single token. -/
def ofToken (token : Located Token) : Expansion := ⟨[token], []⟩

/-- A single error. -/
def ofError (cause : LexError) (location : Location) : Expansion := ⟨[], [⟨cause, location⟩]⟩

/-- One stretch after the other. -/
def append (first second : Expansion) : Expansion :=
  ⟨first.tokens ++ second.tokens, first.errors ++ second.errors⟩

instance : Append Expansion := ⟨append⟩

/-- The tokens, unless there is an error. -/
def result (expansion : Expansion) : Except (List (Located LexError)) (List (Located Token)) :=
  if expansion.errors.isEmpty then .ok expansion.tokens else .error expansion.errors

end Expansion

/-- The path that a string literal spells. -/
def Path.ofBytes (bytes : List UInt8) : Path :=
  ⟨String.ofList (bytes.map fun byte => Char.ofNat byte.toNat)⟩

/-- Replaces the inclusion directives among tokens by what `enter` gives for their
paths. The token after a directive is its path and belongs to it, also when it is
no path at all. -/
def expandTokens (enter : Path → Location → StateM Inclusions Expansion) (directory : Path) :
    List (Located Token) → StateM Inclusions Expansion
  | [] => pure .empty
  | [token] =>
      if token.value = .inclusion then pure (.ofError .missingInclusionPath token.location)
      else pure (.ofToken token)
  | token :: next :: rest =>
      if token.value = .inclusion then
        match next.value with
        | .string bytes => do
            let included ← enter (directory.join (.ofBytes bytes)) token.location
            return included ++ (← expandTokens enter directory rest)
        | _ => do
            return .ofError .missingInclusionPath token.location ++
              (← expandTokens enter directory rest)
      else do
        return .ofToken token ++ (← expandTokens enter directory (next :: rest))

/-- Expands what has been read of a source. Errors in its own text hide its
directives. -/
def expandReading (enter : Path → Location → StateM Inclusions Expansion) (directory : Path)
    (reading : Reading) : StateM Inclusions Expansion :=
  match reading.tokens with
  | .ok tokens => expandTokens enter directory tokens
  | .error errors => pure ⟨[], errors⟩

/-- Notes that a path is asked for and tells whether that is for the first time. -/
def askFor (tree : FileTree) (path : Path) : StateM Inclusions Bool := do
  let state ← get
  let identity := tree.identify path
  if identity ∈ state.seen then return false
  set { state with seen := identity :: state.seen }
  return true

/-- Opens a file. -/
def openFile (tree : FileTree) (path : Path) : StateM Inclusions (Except FileError ByteArray) := do
  modify fun state => { state with opened := path :: state.opened }
  return tree.read path

/-- What a directive at a location stands for, in a compilation that has done with
reading. Each nested file is a new one, so a depth of one more than the number of files
and their further names is never used up. -/
def expandFile (tree : FileTree) : Nat → Path → Location → StateM Inclusions Expansion
  | 0, _, _ => pure .empty
  | depth + 1, path, location => do
      if ← askFor tree path then
        match ← openFile tree path with
        | .ok bytes =>
            expandReading (expandFile tree depth) path.directory (.ofBytes path.text bytes)
        | .error cause => return .ofError (.inclusion path cause) location
      else return .empty

namespace FileTree

/-- The depth that inclusions cannot exceed. -/
def inclusionDepth (tree : FileTree) : Nat := tree.files.length + tree.entries.length + 1

/-- Expands a file that is compiled, and tells which paths were opened. -/
def expandRoot (tree : FileTree) (path : Path) : Expansion × Inclusions :=
  (expandFile tree (tree.inclusionDepth + 1) path (.startOf path.text)).run ⟨[], []⟩

/-- Expands text that is in no file and includes files from the given directory. -/
def expandText (tree : FileTree) (name : String) (text : ByteArray) (directory : Path) :
    Expansion × Inclusions :=
  (expandReading (expandFile tree tree.inclusionDepth) directory (.ofBytes name text)).run
    ⟨[], []⟩

/-- The tokens of a file with everything it includes. -/
def tokens (tree : FileTree) (path : Path) :
    Except (List (Located LexError)) (List (Located Token)) :=
  (tree.expandRoot path).1.result

/-- The tokens of text that is in no file, which includes files from the given
directory. -/
def textTokens (tree : FileTree) (name : String) (text : ByteArray) (directory : Path) :
    Except (List (Located LexError)) (List (Located Token)) :=
  (tree.expandText name text directory).1.result

/-- What keeps a path that is opened from being read to its end. A directory has lines
without end, all of them unreadable. -/
def obstacle? (tree : FileTree) (path : Path) : Option Breakdown :=
  match tree.read path with
  | .ok bytes => (Reading.ofBytes path.text bytes).obstacle?
  | .error .isDirectory => some .endless
  | .error _ => none

/-- The first obstacle among the paths that were opened. -/
def firstObstacle? (tree : FileTree) (inclusions : Inclusions) : Option Breakdown :=
  inclusions.opened.reverse.findSome? tree.obstacle?

/-- What keeps a file from being read with everything it includes. -/
def rootObstacle? (tree : FileTree) (path : Path) : Option Breakdown :=
  tree.firstObstacle? (tree.expandRoot path).2

/-- What keeps text that is in no file from being read with everything it includes. It is
read itself before it includes anything. -/
def textObstacle? (tree : FileTree) (name : String) (text : ByteArray) (directory : Path) :
    Option Breakdown :=
  (Reading.ofBytes name text).obstacle?.or
    (tree.firstObstacle? (tree.expandText name text directory).2)

end FileTree

end AccumulatorC
