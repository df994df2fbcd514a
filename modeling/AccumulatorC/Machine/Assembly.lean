import AccumulatorC.Machine.Address

/-!
# Assembly

The lines that are generated: labels, instructions and data. A label with a leading
dot belongs to the last label without one, so the numbered labels inside a function
are dotted. There is no data section; data stands between instructions and is
jumped over.
-/

namespace AccumulatorC

/-- What a numbered label belongs to. -/
inductive Family
  | branch
  | loop
  | equal
  | notEqual
  | less
  | lessOrEqual
  | greater
  | greaterOrEqual
  | shiftLeft
  | shiftRight
  | multiply
  | divide
  | string
  deriving DecidableEq, Repr

/-- The first part of a numbered label. -/
def Family.text : Family → String
  | branch => "if"
  | loop => "while"
  | equal => "cmp_equal"
  | notEqual => "cmp_not_equal"
  | less => "cmp_less"
  | lessOrEqual => "cmp_less_equal"
  | greater => "cmp_more"
  | greaterOrEqual => "cmp_more_equal"
  | shiftLeft => "shl"
  | shiftRight => "shr"
  | multiply => "mul"
  | divide => "div"
  | string => "string"

/-- Which of the labels with one number a label is. -/
inductive Role
  | yes
  | no
  | exit
  | start
  | contents
  | repetition
  | step
  | decision
  deriving DecidableEq, Repr

/-- The middle part of a numbered label. -/
def Role.text : Role → String
  | yes => "true"
  | no => "false"
  | exit => "exit"
  | start => "start"
  | contents => "contents"
  | repetition => "loop"
  | step => "step"
  | decision => "decide"

/-- A label. -/
inductive Label
  /-- Where the machine starts. -/
  | entry
  /-- Where the machine stays after the program has ended. -/
  | halt
  /-- The end of the program. -/
  | heap
  /-- A function or a global variable. -/
  | symbol (name : String)
  /-- The end of a function. -/
  | exit (function : String)
  /-- A place inside a function. -/
  | inner (family : Family) (role : Role) (number : Nat)
  /-- A string literal, inside a function or outside. -/
  | string (inside : Bool) (number : Nat)
  /-- The end of a string literal. -/
  | stringEnd (inside : Bool) (number : Nat)
  deriving DecidableEq, Repr

/-- The dot of a label that belongs to a function. -/
def dot (inside : Bool) : String := if inside then "." else ""

/-- How a label is written. -/
def Label.text : Label → String
  | entry => "__start"
  | halt => "__halt"
  | heap => "heap_start"
  | symbol name => name
  | exit function => s!"{function}_exit"
  | inner family role number => s!".{family.text}_{role.text}_{number}"
  | string inside number => s!"{dot inside}string_{number}"
  | stringEnd inside number => s!"{dot inside}string_skip_{number}"

/-- The number behind the last underscore of a label, if there is one. -/
def Label.number? : Label → Option Nat
  | inner _ _ number | string _ number | stringEnd _ number => some number
  | entry | halt | heap | symbol _ | exit _ => none

/-- When a jump is taken. After a comparison `greater` means that the accumulator
was the larger operand. -/
inductive Condition
  | always
  | equal
  | notEqual
  | greater
  | notGreater
  deriving DecidableEq, Repr

/-- The name of a jump. -/
def Condition.text : Condition → String
  | always => "jmp"
  | equal => "je"
  | notEqual => "jne"
  | greater => "jc"
  | notGreater => "jnc"

/-- Operations on the accumulator. -/
inductive AccumulatorOp
  | add
  | sub
  | and
  | or
  | compare
  deriving DecidableEq, Repr

/-- The name of an operation on the accumulator. -/
def AccumulatorOp.text : AccumulatorOp → String
  | add => "add"
  | sub => "sub"
  | and => "and"
  | or => "or"
  | compare => "cmp"

/-- The second operand of an operation on the accumulator. -/
inductive AccumulatorOperand
  | reg (r : Reg)
  | number (value : Nat)
  /-- The lowest bits, as many as given. -/
  | lowBits (count : Nat)
  deriving DecidableEq, Repr

/-- How the second operand is written. -/
def AccumulatorOperand.text : AccumulatorOperand → String
  | reg r => r.text
  | number value => toString value
  | lowBits count => "0b" ++ String.ofList (List.replicate count '1')

/-- Operations on two pairs. -/
inductive PairOp
  | add
  | sub
  deriving DecidableEq, Repr

/-- The name of an operation on two pairs. -/
def PairOp.text : PairOp → String
  | add => "add16"
  | sub => "sub16"

/-- An instruction. -/
inductive Instr
  /-- A number into a register. -/
  | setNumber (target : Reg) (value : Nat)
  /-- The address of a label into a register. -/
  | setLabel (target : Reg) (label : Label)
  /-- The address of an operand into a register. -/
  | setAddress (target : Reg) (address : Address)
  /-- A register into another one. -/
  | copy (target source : Reg)
  /-- A byte of memory into a register. -/
  | load (target : Reg) (address : Address)
  /-- A register into a byte of memory. -/
  | store (address : Address) (source : Reg)
  /-- Lowers the stack pointer. -/
  | reserve (bytes : Nat)
  /-- Raises the stack pointer. -/
  | release (bytes : Nat)
  | push (source : Reg)
  | pop (target : Reg)
  /-- An operation on the accumulator. -/
  | accumulate (op : AccumulatorOp) (operand : AccumulatorOperand)
  /-- An operation on two pairs, whose result is left in the first. -/
  | combine (op : PairOp) (target source : Reg)
  | increment (target : Reg)
  | decrement (target : Reg)
  /-- Rotates the accumulator left by one bit. -/
  | rotate
  | jump (condition : Condition) (target : Label)
  /-- Jumps over the data of a variable. -/
  | skip (name : String) (bytes : Nat)
  | call (function : String)
  | ret
  deriving DecidableEq, Repr

/-- The name and the operands of an instruction. -/
def Instr.parts : Instr → String × String
  | setNumber target value => ("mov", s!"{target.text}, {value}")
  | setLabel target label => ("mov", s!"{target.text}, {label.text}")
  | setAddress target address => ("mov", s!"{target.text}, {address.value}")
  | copy target source => ("mov", s!"{target.text}, {source.text}")
  | load target address => ("mov", s!"{target.text}, {address.text}")
  | store address source => ("mov", s!"{address.text}, {source.text}")
  | reserve bytes => ("mov", s!"sp, sp-{bytes}")
  | release bytes => ("mov", s!"sp, sp+{bytes}")
  | push source => ("push", source.text)
  | pop target => ("pop", target.text)
  | accumulate op operand => (op.text, operand.text)
  | combine op target source => (op.text, s!"{target.text}, {source.text}")
  | increment target => ("inc", target.text)
  | decrement target => ("dec", target.text)
  | rotate => ("rol", "")
  | jump condition target => (condition.text, target.text)
  | skip name bytes => ("jmp", s!"{name} + {bytes}")
  | call function => ("call", function)
  | ret => ("ret", "")

/-- Data between instructions. -/
inductive Data
  /-- So many bytes without a value. -/
  | space (bytes : Nat)
  | byte (value : Nat)
  | word (value : Nat)
  /-- The address of a label. -/
  | address (label : Label)
  /-- The bytes of a string and a zero after them. -/
  | text (bytes : List UInt8)
  deriving DecidableEq, Repr

/-- Two hexadecimal digits. -/
def hexByte (byte : UInt8) : String :=
  String.ofList [Nat.digitChar (byte.toNat / 16), Nat.digitChar (byte.toNat % 16)]

/-- A byte of a string between quotes: printable characters stand for themselves,
a few others have short escapes, and the rest is written in hexadecimal. -/
def escapeByte (byte : UInt8) : String :=
  match byte with
  | 34 => "\\\""
  | 92 => "\\\\"
  | 10 => "\\n"
  | 9 => "\\t"
  | 13 => "\\r"
  | 0 => "\\0"
  | byte =>
      if 0x20 ≤ byte ∧ byte ≤ 0x7e then (Char.ofNat byte.toNat).toString
      else "\\x" ++ hexByte byte

/-- Bytes as the text of a string. -/
def escapeBytes (bytes : List UInt8) : String := String.join (bytes.map escapeByte)

/-- Fills a name with blanks to eight columns, where the operands stand. -/
def column (name : String) : String :=
  name ++ String.ofList (List.replicate (8 - name.length) ' ')

/-- How data is written. -/
def Data.directive : Data → String
  | space bytes => s!"#res {bytes}"
  | byte value => s!"#d8 {value}"
  | word value => s!"#d16 {value}"
  | address label => s!"#d16 {label.text}"
  | text bytes => column "#d" ++ "\"" ++ escapeBytes bytes ++ "\\0\""

/-- A line of assembly. -/
inductive Line
  | label (label : Label)
  | instr (instr : Instr)
  | data (data : Data)
  deriving DecidableEq, Repr

/-- Whether the number of a label leaves room for the next one. -/
def Line.isCounted : Line → Bool
  | label l => l.number?.all (· + 1 < counterLimit)
  | instr _ | data _ => true

/-- A line with its end. Labels start in the first column. -/
def Line.text : Line → String
  | label l => l.text ++ ":\n"
  | instr i =>
      match i.parts with
      | (name, "") => "\t" ++ name ++ "\n"
      | (name, operands) => "\t" ++ column name ++ operands ++ "\n"
  | data d => "\t" ++ d.directive ++ "\n"

/-- A whole program for the assembler: the file it includes first, the address it is
loaded at, and its lines. -/
structure Assembly where
  preface : Option String
  origin : UInt16
  lines : List Line

/-- Four hexadecimal digits with their sign. -/
def addressText (address : UInt16) : String :=
  let digits := Nat.toDigits 16 address.toNat
  "0x" ++ String.ofList (List.replicate (4 - digits.length) '0' ++ digits)

/-- The text that the assembler reads. -/
def Assembly.text (assembly : Assembly) : String :=
  (match assembly.preface with
    | some file => "#include \"" ++ file ++ "\"\n"
    | none => "") ++
  "#bank RAM\n#addr " ++ addressText assembly.origin ++ "\n" ++
  String.join (assembly.lines.map Line.text)

end AccumulatorC
