import AccumulatorC.Arguments
import AccumulatorC.Compile

/-!
# Command line

The arguments name one input and may choose where the output goes, the address the
program is loaded at and a file that the assembler includes first. A run compiles
the input and writes the assembly to one place, or it reports why it does not. How the
arguments are understood, what is logged on the way and whether a write succeeds depends
on the host of the run.
-/

namespace AccumulatorC

/-! ## Addresses -/

/-- Why a text is no address. -/
inductive OriginError
  | empty
  | invalidDigit
  | tooLarge
  deriving DecidableEq, Repr

/-- What is said about a text that is no address. -/
def OriginError.message : OriginError → String
  | empty => "cannot parse integer from empty string"
  | invalidDigit => "invalid digit found in string"
  | tooLarge => "number too large to fit in target type"

/-- Adds hexadecimal digits to an address, up to the first one that does not do. -/
def addDigits : Nat → List Char → Except OriginError UInt16
  | address, [] => .ok (UInt16.ofNat address)
  | address, digit :: rest =>
      if ¬ Lexeme.isHexDigit digit then .error .invalidDigit
      else
        let next := 16 * address + Lexeme.digitValue digit
        if next < addressLimit then addDigits next rest else .error .tooLarge

/-- The address that hexadecimal digits denote, after an optional plus sign. -/
def parseDigits : List Char → Except OriginError UInt16
  | [] => .error .empty
  | ['+'] => .error .invalidDigit
  | '+' :: digits => addDigits 0 digits
  | digits => addDigits 0 digits

/-- An address in hexadecimal, with or without a sign for the base before it. -/
def parseOrigin (text : String) : Except OriginError UInt16 :=
  match text.toList with
  | '0' :: 'x' :: digits | '0' :: 'X' :: digits => parseDigits digits
  | digits => parseDigits digits

/-! ## Hosts -/

/-- How closely a message follows what the program does. -/
inductive LogLevel
  | info
  | debug
  | trace
  deriving DecidableEq, Repr

/-- How often more messages must be asked for until those of a level are shown. -/
def LogLevel.threshold : LogLevel → Nat
  | info => 1
  | debug => 2
  | trace => 3

/-- A level as it stands in the line for a message. -/
def LogLevel.text : LogLevel → String
  | info => "INFO "
  | debug => "DEBUG"
  | trace => "TRACE"

/-- A message that is logged. -/
structure LogRecord where
  level : LogLevel
  text : String
  deriving DecidableEq, Repr

/-- What comes of writing to something that is open. -/
inductive Transfer
  | whole
  /-- It ends after so many bytes. -/
  | cut (count : Nat) (cause : String)
  deriving DecidableEq, Repr

/-- What a run depends on besides its arguments and the files. -/
structure Host where
  /-- What the arguments are understood as. -/
  understand : List String → Understanding
  /-- What the phases of a compilation log. -/
  phases : FileTree → Options → Path → List LogRecord
  /-- The line that shows a record, given the number of those before it. -/
  line : Nat → LogRecord → String
  /-- What comes of writing a text to a file. -/
  file : Path → String → Transfer
  /-- What comes of writing a text to the standard output. -/
  console : String → Transfer

namespace Host

/-- A host whose writes never end early, and where nothing is logged but the start and the
end of a run, in lines that do not say when. -/
def plain : Host where
  understand := Understanding.ofArguments
  phases _ _ _ := []
  line _ record := s!"{record.level.text} [cc8] {record.text}\n"
  file _ _ := .whole
  console _ := .whole

/-- The lines that are printed for records, which are those for which enough messages have
been asked for. -/
def logged (host : Host) (verbosity : Nat) (records : List LogRecord) : String :=
  String.join ((records.zipIdx.filter (·.1.level.threshold ≤ verbosity)).map fun record =>
    host.line record.2 record.1)

end Host

/-! ## Outcomes -/

/-- What a run leaves: its exit code, what it prints, and what it writes to a file. -/
structure Outcome where
  code : Nat
  stdout : String
  stderr : String
  written : Option (Path × ByteArray)

/-- A run that breaks down: why it does, and what it has printed by then. -/
structure Interruption where
  cause : Breakdown
  stdout : String

namespace Outcome

/-- An error on its own line, with its cause if it has one. -/
def errorText (message : String) (cause : Option String) : String :=
  match cause with
  | none => s!"Error: {message}\n"
  | some cause => s!"Error: {message}\n\nCaused by:\n    {cause}\n"

/-- A run that fails after it has logged something and given some messages. -/
def failure (log messages message : String) (cause : Option String) : Outcome :=
  ⟨1, log, messages ++ errorText message cause, none⟩

/-- A run that breaks down. -/
def brokenDown (interruption : Interruption) : Outcome :=
  ⟨101, interruption.stdout, interruption.cause.message ++ "\n", none⟩

end Outcome

/-- The extension of assembly files. -/
def assemblyExtension : String := "asm"

/-- Where the output goes: a file that is named, standard output for a single dash,
or else beside the input under another extension. -/
def outputPath (input : Path) : Option String → Option Path
  | some "-" => none
  | some file => some ⟨file⟩
  | none => some (input.withExtension assemblyExtension)

/-- What is printed of the warnings of a compiled program. -/
def Compiled.messages (compiled : Compiled) : Except Breakdown String :=
  if compiled.warnings.isEmpty then .ok "" else compiled.diagnostics.rendered

/-! ## Runs -/

namespace Host

/-- What is logged until an input is compiled. -/
def records (host : Host) (tree : FileTree) (options : Options) (input : Path) :
    List LogRecord :=
  ⟨.info, s!"Compiling {input.text}"⟩ :: host.phases tree options input

/-- Delivers assembly to standard output or to a file, after what was logged and the
messages that were given on the way. -/
def deliver (host : Host) (tree : FileTree) (verbosity : Nat) (records : List LogRecord)
    (messages assembly : String) : Option Path → Outcome
  | none =>
      let log := host.logged verbosity records
      match host.console assembly with
      | .whole => ⟨0, log ++ assembly, messages, none⟩
      | .cut count cause =>
          .failure (log ++ String.ofList (assembly.toList.take count)) messages
            "Failed to write to stdout" (some cause)
  | some path =>
      let failure (cause : String) : Outcome :=
        .failure (host.logged verbosity records) messages
          s!"Failed to open for writing: {path.text}" (some cause)
      match tree.destination path, host.file path assembly with
      | .ok _, .whole =>
          let records := records ++ [⟨.info, s!"Wrote {path.text}"⟩]
          ⟨0, host.logged verbosity records, messages, some (path, assembly.toUTF8)⟩
      | .ok _, .cut count cause =>
          { failure cause with written := some (path, assembly.toUTF8.extract 0 count) }
      | .error cause, _ => failure cause.message

/-- Compiles an input and delivers the result. -/
def build (host : Host) (tree : FileTree) (verbosity : Nat) (output : Option String)
    (options : Options) (input : Path) : Except Breakdown Outcome :=
  let records := host.records tree options input
  match tree.compileFile options input with
  | .ok compiled => do
      return host.deliver tree verbosity records (← compiled.messages) compiled.assembly.text
        (outputPath input output)
  | .error (.diagnosis diagnostics) => do
      return .failure (host.logged verbosity records) (← diagnostics.rendered)
        s!"Failed to compile {input.text}" none
  | .error (.breakdown cause) => .error cause

/-- Does what is asked for. -/
def perform (host : Host) (tree : FileTree) (invocation : Invocation) :
    Except Interruption Outcome :=
  match invocation.input with
  | none => .ok (.failure "" "" "Missing input file" none)
  | some input =>
      match (invocation.origin.map parseOrigin).getD (.ok defaultOrigin) with
      | .error cause =>
          .ok (.failure "" "" ("Bad origin address: " ++ invocation.origin.getD "")
            (some cause.message))
      | .ok address =>
          let options : Options := ⟨address, invocation.preface⟩
          (host.build tree invocation.verbosity invocation.output options ⟨input⟩).mapError
            fun cause =>
              ⟨cause, host.logged invocation.verbosity (host.records tree options ⟨input⟩)⟩

/-- Runs a command line. -/
def run (host : Host) (tree : FileTree) (arguments : List String) :
    Except Interruption Outcome :=
  match host.understand arguments with
  | .answer text => .ok ⟨0, text, "", none⟩
  | .misuse text => .ok ⟨2, "", text, none⟩
  | .request invocation => host.perform tree invocation

/-- How a command line ends, if it does, whether or not it breaks down. -/
def finish (host : Host) (tree : FileTree) (arguments : List String) : Option Outcome :=
  match host.run tree arguments with
  | .ok outcome => some outcome
  | .error interruption =>
      if interruption.cause = .endless then none else some (.brokenDown interruption)

end Host

namespace FileTree

/-- Runs a command line on a plain host. -/
def run (tree : FileTree) (arguments : List String) : Except Interruption Outcome :=
  Host.plain.run tree arguments

/-- The files after a run. -/
def after (tree : FileTree) (outcome : Outcome) : FileTree :=
  match outcome.written with
  | none => tree
  | some (path, content) => (tree.write path content).toOption.getD tree

end FileTree

end AccumulatorC
