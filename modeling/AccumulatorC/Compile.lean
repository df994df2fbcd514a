import AccumulatorC.Diagnostic
import AccumulatorC.Lowering.Unit
import AccumulatorC.Program.Parser.Unit
import AccumulatorC.Token.Inclusion

/-!
# Compiling

From source text to assembly. Each phase works on the whole result of the one
before and ends the compilation with its own diagnostics.
-/

namespace AccumulatorC

/-- What can be chosen for a compilation. -/
structure Options where
  /-- The address that the program is loaded at. -/
  origin : UInt16
  /-- A file that the assembler includes before everything else. -/
  preface : Option String

/-- The address that a program is loaded at unless another one is chosen. -/
def defaultOrigin : UInt16 := 0x8000

/-- The options when none is chosen. -/
def Options.default : Options := ⟨defaultOrigin, none⟩

/-- A compiled program. -/
structure Compiled where
  assembly : Assembly
  warnings : List (Located Conversion)

/-- A diagnosis with its message alone. -/
def Located.rendered {ε : Type} (message : ε → String) (entry : Located ε) : Located String :=
  ⟨message entry.value, entry.location⟩

/-- All warnings of a compiled program. -/
def Compiled.diagnostics (compiled : Compiled) : Diagnostics :=
  .warnings (compiled.warnings.map (·.rendered Conversion.message))

/-- The diagnostics of a stage that ends at its first error. -/
def Stop.diagnostics {ε : Type} (message : ε → String) (stop : Stop (Located ε)) :
    Stop Diagnostics :=
  stop.map fun entry => .errors [entry.rendered message]

/-- Reads tokens as a program. -/
def parseTokens (tokens : Except (List (Located LexError)) (List (Located Token))) :
    Except (Stop Diagnostics) Parsed :=
  match tokens with
  | .error errors => .error (.diagnosis (.errors (errors.map (·.rendered LexError.message))))
  | .ok tokens =>
      match Program.ofTokens tokens with
      | .error stop => .error (stop.diagnostics ParseError.message)
      | .ok parsed => .ok parsed

/-- Compiles tokens. -/
def compileTokens (options : Options)
    (tokens : Except (List (Located LexError)) (List (Located Token))) :
    Except (Stop Diagnostics) Compiled :=
  match parseTokens tokens with
  | .error stop => .error stop
  | .ok parsed =>
      match parsed.program.lines with
      | .error stop => .error (stop.diagnostics LowerError.message)
      | .ok lines => .ok ⟨⟨options.preface, options.origin, lines⟩, parsed.warnings⟩

/-- The program, unless its labels are too many to be counted. -/
def Compiled.counted (compiled : Compiled) : Except (Stop Diagnostics) Compiled :=
  if compiled.assembly.lines.all Line.isCounted then .ok compiled
  else .error (.breakdown .labelOverflow)

/-- Compiles tokens that come from sources, unless there is an obstacle to reading
these. -/
def compileSources (options : Options) (obstacle : Option Breakdown)
    (tokens : Except (List (Located LexError)) (List (Located Token))) :
    Except (Stop Diagnostics) Compiled :=
  match obstacle with
  | some cause => .error (.breakdown cause)
  | none => compileTokens options tokens >>= Compiled.counted

namespace FileTree

/-- Compiles text that is in no file; what it includes is found from the working
directory. -/
def compileText (tree : FileTree) (options : Options) (source : String) :
    Except (Stop Diagnostics) Compiled :=
  compileSources options (tree.textObstacle? "<input>" source.toUTF8 ⟨"."⟩)
    (tree.textTokens "<input>" source.toUTF8 ⟨"."⟩)

/-- Compiles a file. -/
def compileFile (tree : FileTree) (options : Options) (path : Path) :
    Except (Stop Diagnostics) Compiled :=
  compileSources options (tree.rootObstacle? path) (tree.tokens path)

end FileTree

end AccumulatorC
