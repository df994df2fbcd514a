/-!
# Arguments

What arguments ask for: the name of one input, and perhaps where the output goes, the
address the program is loaded at, a file that the assembler includes first and how much
is to be told on the way.
-/

namespace AccumulatorC

/-- The values of the arguments, where they are given, and how often more messages are
asked for. -/
structure Invocation where
  input : Option String
  output : Option String
  origin : Option String
  preface : Option String
  verbosity : Nat
  deriving DecidableEq, Repr

/-- What arguments are understood as. -/
inductive Understanding
  /-- A question, such as the one for the version; this is the answer. -/
  | answer (text : String)
  /-- Nothing that makes sense, which is said in this way. -/
  | misuse (text : String)
  | request (invocation : Invocation)
  deriving DecidableEq, Repr

/-- A choice that takes a value. -/
inductive Setting
  | output
  | origin
  | preface
  deriving DecidableEq, Repr

/-- Every choice that takes a value. -/
def Setting.all : List Setting := [.output, .origin, .preface]

/-- The long name of a choice. -/
def Setting.text : Setting → String
  | output => "output"
  | origin => "origin"
  | preface => "prelude"

/-- Arguments that cannot be understood. -/
inductive UsageError
  | unknownOption (option : String)
  | unexpectedArgument (argument : String)
  | unneededValue (option : String)
  | repeatedOption (setting : Setting)
  | missingValue (setting : Setting)
  | missingInput
  deriving DecidableEq, Repr

/-- What is said about arguments that cannot be understood. -/
def UsageError.message : UsageError → String
  | unknownOption option => s!"unknown option {option}"
  | unexpectedArgument argument => s!"unexpected argument {argument}"
  | unneededValue option => s!"option {option} takes no value"
  | repeatedOption setting => s!"option --{setting.text} is given more than once"
  | missingValue setting => s!"option --{setting.text} needs a value"
  | missingInput => "no input file is given"

/-- The arguments seen so far: the choices in order, with their values if they have
one, the input, and how often more messages were asked for. -/
structure Arguments where
  given : List (Setting × Option String)
  input : Option String
  verbosity : Nat

namespace Arguments

/-- No arguments. -/
def empty : Arguments := ⟨[], none, 0⟩

/-- One more choice. -/
def give (found : Arguments) (setting : Setting) (value : Option String) : Arguments :=
  { found with given := found.given ++ [(setting, value)] }

/-- The values that a choice was given. -/
def values (found : Arguments) (setting : Setting) : List (Option String) :=
  (found.given.filter (·.1 = setting)).map (·.2)

/-- The value of a choice, which is made at most once and not without a value. -/
def value (found : Arguments) (setting : Setting) : Except UsageError (Option String) :=
  match found.values setting with
  | [] => .ok none
  | [some value] => .ok (some value)
  | [none] => .error (.missingValue setting)
  | _ => .error (.repeatedOption setting)

/-- What all arguments together ask for. -/
def request (found : Arguments) : Except UsageError Understanding := do
  let output ← found.value .output
  let origin ← found.value .origin
  let preface ← found.value .preface
  match found.input with
  | some input => return .request ⟨input, output, origin, preface, found.verbosity⟩
  | none => throw .missingInput

/-- One more input, of which there can be only one. -/
def addInput (found : Arguments) (input : String) : Except UsageError Arguments :=
  match found.input with
  | none => .ok { found with input := some input }
  | some _ => .error (.unexpectedArgument input)

end Arguments

/-- What an argument is. -/
inductive ArgumentKind
  /-- The sign after which every argument is an input. -/
  | separator
  /-- A long option, with a value if an equals sign follows its name. -/
  | long (name : String) (value : Option String)
  /-- Short options. -/
  | short (letters : List Char)
  /-- An input or the value of the option before. A single dash is one, too. -/
  | plain
  deriving DecidableEq, Repr

/-- Tells what an argument is. -/
def ArgumentKind.of (argument : String) : ArgumentKind :=
  match argument.toList with
  | ['-', '-'] => .separator
  | '-' :: '-' :: rest =>
      let name := rest.takeWhile (· ≠ '=')
      match rest.dropWhile (· ≠ '=') with
      | [] => .long (String.ofList name) none
      | _ :: value => .long (String.ofList name) (some (String.ofList value))
  | '-' :: letter :: rest => .short (letter :: rest)
  | _ => .plain

/-- The name and the version of the program. -/
def versionText : String := "cc8 0.1.0\n"

/-- How the program is used. -/
def helpText : String :=
  "Usage: cc8 [OPTIONS] INPUT\n\nOptions:\n" ++
  "  -o, --output FILE   where the assembly goes (- for standard output)\n" ++
  "  --origin HEX        the address that the program is loaded at\n" ++
  "  --prelude FILE      a file that the assembler includes first\n" ++
  "  -v                  more messages\n" ++
  "  -h, --help          this text\n" ++
  "  -V, --version       the version\n"

/-- What options in one argument come to. -/
inductive OptionEffect
  /-- The arguments with the option. -/
  | found (arguments : Arguments)
  /-- The option takes the next argument as its value. -/
  | awaits (setting : Setting)
  /-- Nothing else matters any more. -/
  | answer (text : String)

namespace OptionEffect

/-- A long option. -/
def long (found : Arguments) (name : String) (value : Option String) :
    Except UsageError OptionEffect :=
  match Setting.all.find? (·.text = name), value with
  | some setting, some value => .ok (.found (found.give setting value))
  | some setting, none => .ok (.awaits setting)
  | none, some _ =>
      .error (if name = "version" ∨ name = "help" then .unneededValue name
        else .unknownOption name)
  | none, none =>
      if name = "version" then .ok (.answer versionText)
      else if name = "help" then .ok (.answer helpText)
      else .error (.unknownOption name)

/-- Short options that share a dash. The letter for the output takes all that follows as
its value. -/
def short (found : Arguments) : List Char → Except UsageError OptionEffect
  | [] => .ok (.found found)
  | 'v' :: rest => short { found with verbosity := found.verbosity + 1 } rest
  | 'V' :: _ => .ok (.answer versionText)
  | 'h' :: _ => .ok (.answer helpText)
  | ['o'] => .ok (.awaits .output)
  | 'o' :: '=' :: value => .ok (.found (found.give .output (some (String.ofList value))))
  | 'o' :: value => .ok (.found (found.give .output (some (String.ofList value))))
  | letter :: _ => .error (.unknownOption letter.toString)

end OptionEffect

/-- Inputs alone. -/
def Arguments.addInputs (found : Arguments) : List String → Except UsageError Arguments
  | [] => .ok found
  | input :: rest => do (← found.addInput input).addInputs rest

/-- Goes through arguments from the left, while the choice that comes before them may
still await its value. -/
def Arguments.scan (found : Arguments) (awaiting : Option Setting) :
    List String → Except UsageError Understanding
  | [] => (awaiting.elim found (found.give · none)).request
  | argument :: rest =>
      let without := awaiting.elim found (found.give · none)
      let follow (effect : Except UsageError OptionEffect) : Except UsageError Understanding :=
        match effect with
        | .ok (.found found) => scan found none rest
        | .ok (.awaits setting) => scan without (some setting) rest
        | .ok (.answer text) => .ok (.answer text)
        | .error cause => .error cause
      match ArgumentKind.of argument with
      | .separator => (without.addInputs rest).bind request
      | .long name value => follow (OptionEffect.long without name value)
      | .short letters => follow (OptionEffect.short without letters)
      | .plain =>
          match awaiting with
          | some setting => scan (found.give setting (some argument)) none rest
          | none =>
              match found.addInput argument with
              | .ok found => scan found none rest
              | .error cause => .error cause

/-- What arguments are understood as when the options are those of `helpText`. -/
def Understanding.ofArguments (arguments : List String) : Understanding :=
  match Arguments.empty.scan none arguments with
  | .ok understanding => understanding
  | .error cause => .misuse s!"error: {cause.message}\n"

end AccumulatorC
