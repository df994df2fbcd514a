import AccumulatorC.CommandLine
import AccumulatorC.Proofs.Breakdown
import AccumulatorC.Proofs.Files.Opening

/-!
# All or nothing

A command line that fails has printed no assembly and changed no file, however far it has come. One
that compiles an input and succeeds has put the whole assembly in exactly one place, which is the
standard output or a file, and has printed its warnings elsewhere. Lines of the logger are printed on
the standard output, too, but none unless more messages are asked for. All this is so however the host
of a run understands the arguments, if its writes do not end early.
-/

namespace AccumulatorC

/-- How often more messages are asked for. -/
def Understanding.verbosity : Understanding → Nat
  | .request invocation => invocation.verbosity
  | .answer _ | .misuse _ => 0

variable {host : Host} {tree : FileTree} {outcome : Outcome} {arguments : List String}
  {invocation : Invocation} {input messages assembly : String} {compiled : Compiled}
  {options : Options} {path : Path} {output : Option String} {verbosity : Nat}
  {records : List LogRecord}

/-! ## What is logged -/

namespace Host

/-- Writing to what is open never ends early. -/
structure Whole (host : Host) : Prop where
  file : ∀ path text, host.file path text = .whole
  console : ∀ text, host.console text = .whole

/-- A text consists of lines for records, of which there are none unless more messages are asked
for. -/
structure Logs (host : Host) (verbosity : Nat) (text : String) : Prop where
  lines : ∃ records, text = host.logged verbosity records
  silent : verbosity = 0 → text = ""

/-- Every record needs more messages to be asked for. -/
theorem logged_zero (host : Host) (records : List LogRecord) : host.logged 0 records = "" := by
  have hnone : records.zipIdx.filter (·.1.level.threshold ≤ 0) = [] := by
    refine List.filter_eq_nil_iff.mpr fun record _ => ?_
    cases record.1.level <;> decide
  rw [logged, hnone]
  rfl

theorem logs_logged (host : Host) (verbosity : Nat) (records : List LogRecord) :
    host.Logs verbosity (host.logged verbosity records) :=
  ⟨⟨records, rfl⟩, fun h => h ▸ host.logged_zero records⟩

theorem logs_empty (host : Host) (verbosity : Nat) : host.Logs verbosity "" :=
  host.logs_logged verbosity []

/-- A run that comes to nothing: it prints no more than what is logged, and writes no file. -/
structure Void (host : Host) (verbosity : Nat) (outcome : Outcome) : Prop where
  code : outcome.code ≠ 0
  stdout : host.Logs verbosity outcome.stdout
  written : outcome.written = none

end Host

namespace FileTree

/-- A run that writes nothing leaves the files as they are. -/
theorem after_of_written_none (h : outcome.written = none) : tree.after outcome = tree := by
  rw [after, h]

/-- An invocation for an input leads to a program. -/
def Yields (tree : FileTree) (invocation : Invocation) (input : String) (compiled : Compiled) :
    Prop :=
  ∃ address, (invocation.origin.map parseOrigin).getD (.ok defaultOrigin) = .ok address ∧
    tree.compileFile ⟨address, invocation.preface⟩ ⟨input⟩ = .ok compiled

/-- All that is needed for an input, with the program and the messages that come of it. -/
structure Builds (tree : FileTree) (invocation : Invocation) (input : String) (compiled : Compiled)
    (messages : String) : Prop where
  compiles : tree.Yields invocation input compiled
  messages : compiled.messages = .ok messages
  opens : ∀ path, outputPath ⟨input⟩ invocation.output = some path →
    ∃ place, tree.destination path = .ok place

end FileTree

namespace Host

/-- Assembly is delivered to one place, and all else is as it was: to the standard output for a
single dash, or else to the file that is named, or that has the name of the input under another
extension. Only what is logged is printed besides. -/
structure Delivers (host : Host) (tree : FileTree) (invocation : Invocation) (input : String)
    (assembly messages : String) (outcome : Outcome) : Prop where
  code : outcome.code = 0
  stderr : outcome.stderr = messages
  printed : invocation.output = some "-" →
    (∃ log, host.Logs invocation.verbosity log ∧ outcome.stdout = log ++ assembly) ∧
      tree.after outcome = tree
  filed : invocation.output ≠ some "-" →
    host.Logs invocation.verbosity outcome.stdout ∧ ∃ place,
      tree.destination
          ((invocation.output.map Path.mk).getD (Path.withExtension ⟨input⟩ assemblyExtension)) =
        .ok place ∧
      tree.OnlyWrites (tree.after outcome) place assembly.toUTF8

/-! ## What a run comes to -/

theorem build_eq_ok (hcompiled : tree.compileFile options path = .ok compiled) :
    host.build tree verbosity output options path = .ok outcome ↔
      ∃ messages, compiled.messages = .ok messages ∧
        outcome = host.deliver tree verbosity (host.records tree options path) messages
          compiled.assembly.text (outputPath path output) := by
  rw [build, hcompiled]
  dsimp only
  rw [bind_eq_ok]
  exact exists_congr fun messages => and_congr_right fun _ => pure_eq_ok.trans eq_comm

theorem void_of_build {stop : Stop Diagnostics}
    (herror : tree.compileFile options path = .error stop)
    (h : host.build tree verbosity output options path = .ok outcome) :
    host.Void verbosity outcome := by
  rw [build, herror] at h
  cases stop with
  | breakdown => cases h
  | diagnosis diagnostics =>
      obtain ⟨messages, -, houtcome⟩ := bind_eq_ok.mp h
      obtain rfl := pure_eq_ok.mp houtcome
      exact ⟨Nat.one_ne_zero, host.logs_logged _ _, rfl⟩

/-- What an invocation comes to: nothing, or a program that is delivered. -/
theorem perform_cases (h : host.perform tree invocation = .ok outcome) :
    host.Void invocation.verbosity outcome ∨
      ∃ input compiled messages records, invocation.input = some input ∧
        tree.Yields invocation input compiled ∧ compiled.messages = .ok messages ∧
        outcome = host.deliver tree invocation.verbosity records messages compiled.assembly.text
          (outputPath ⟨input⟩ invocation.output) := by
  rw [perform] at h
  split at h
  next =>
    cases h
    exact .inl ⟨Nat.one_ne_zero, host.logs_empty _, rfl⟩
  next input hinput =>
    split at h
    next =>
      cases h
      exact .inl ⟨Nat.one_ne_zero, host.logs_empty _, rfl⟩
    next address haddress =>
      have hbuild := mapError_eq_ok.mp h
      cases hcompiled : tree.compileFile ⟨address, invocation.preface⟩ ⟨input⟩ with
      | error stop => exact .inl (void_of_build hcompiled hbuild)
      | ok compiled =>
          obtain ⟨messages, hmessages, houtcome⟩ := (build_eq_ok hcompiled).mp hbuild
          exact .inr ⟨input, compiled, messages, _, hinput, ⟨address, haddress, hcompiled⟩,
            hmessages, houtcome⟩

/-- An interruption is logged before it happens. -/
theorem logs_of_perform_error {interruption : Interruption}
    (h : host.perform tree invocation = .error interruption) :
    host.Logs invocation.verbosity interruption.stdout := by
  rw [perform] at h
  split at h
  next => cases h
  next =>
    split at h
    next => cases h
    next =>
      obtain ⟨cause, -, rfl⟩ := mapError_eq_error.mp h
      exact host.logs_logged _ _

/-- What a run comes to that ends: an answer, nothing, or a program that is delivered. -/
theorem finish_cases (h : host.finish tree arguments = some outcome) :
    (∃ text, host.understand arguments = .answer text ∧ outcome = ⟨0, text, "", none⟩) ∨
    host.Void (host.understand arguments).verbosity outcome ∨
    ∃ invocation input compiled messages records,
      host.understand arguments = .request invocation ∧ invocation.input = some input ∧
        tree.Yields invocation input compiled ∧ compiled.messages = .ok messages ∧
        outcome = host.deliver tree invocation.verbosity records messages compiled.assembly.text
          (outputPath ⟨input⟩ invocation.output) := by
  rw [finish, run] at h
  cases hunderstand : host.understand arguments with
  | answer text =>
      rw [hunderstand] at h
      exact .inl ⟨text, rfl, (Option.some.inj h).symm⟩
  | misuse text =>
      rw [hunderstand] at h
      obtain rfl := Option.some.inj h
      exact .inr (.inl ⟨Nat.succ_ne_zero 1, host.logs_empty _, rfl⟩)
  | request invocation =>
      rw [hunderstand] at h
      right
      cases hperform : host.perform tree invocation with
      | error interruption =>
          simp only [hperform] at h
          split at h
          next => cases h
          next =>
            obtain rfl := Option.some.inj h
            exact .inl ⟨by simp [Outcome.brokenDown], logs_of_perform_error hperform, rfl⟩
      | ok result =>
          simp only [hperform] at h
          obtain rfl := Option.some.inj h
          exact (perform_cases hperform).imp_right fun ⟨input, compiled, messages, records, hrest⟩ =>
            ⟨invocation, input, compiled, messages, records, rfl, hrest⟩

/-- A program that is asked for is delivered. -/
theorem finish_of_compiles (hrequest : host.understand arguments = .request invocation)
    (hinput : invocation.input = some input) (hcompiles : tree.Yields invocation input compiled)
    (hmessages : compiled.messages = .ok messages) :
    ∃ records, host.finish tree arguments = some (host.deliver tree invocation.verbosity records
      messages compiled.assembly.text (outputPath ⟨input⟩ invocation.output)) := by
  obtain ⟨address, haddress, hcompiled⟩ := hcompiles
  have hbuild : host.build tree invocation.verbosity invocation.output
      ⟨address, invocation.preface⟩ ⟨input⟩ = .ok _ :=
    (build_eq_ok hcompiled).mpr ⟨messages, hmessages, rfl⟩
  refine ⟨host.records tree ⟨address, invocation.preface⟩ ⟨input⟩, ?_⟩
  simp only [finish, run, hrequest, perform, hinput, haddress, hbuild, Except.mapError]

/-! ## Deliveries -/

theorem outputPath_of_ne (h : output ≠ some "-") (path : Path) :
    outputPath path output =
      some ((output.map Path.mk).getD (path.withExtension assemblyExtension)) := by
  unfold outputPath
  split
  next => exact absurd rfl h
  next => rfl
  next => rfl

/-- Nothing is delivered where it cannot be opened. -/
theorem opens_of_deliver
    (h : (host.deliver tree verbosity records messages assembly (some path)).code = 0) :
    ∃ place, tree.destination path = .ok place := by
  cases hplace : tree.destination path with
  | ok place => exact ⟨place, rfl⟩
  | error cause =>
      simp only [deliver, hplace] at h
      cases h

section Whole

variable (hwhole : host.Whole)
include hwhole

/-- A delivery that fails comes to nothing. -/
theorem deliver_void {path : Option Path}
    (h : (host.deliver tree verbosity records messages assembly path).code ≠ 0) :
    host.Void verbosity (host.deliver tree verbosity records messages assembly path) := by
  cases path with
  | none =>
      simp only [deliver, hwhole.console] at h
      exact absurd rfl h
  | some path =>
      cases hplace : tree.destination path with
      | ok place =>
          simp only [deliver, hwhole.file, hplace] at h
          exact absurd rfl h
      | error cause =>
          simp only [deliver, hplace]
          exact ⟨Nat.one_ne_zero, host.logs_logged _ _, rfl⟩

/-- What is delivered arrives where it can be opened. -/
theorem deliver_delivers
    (hopens : ∀ path, outputPath ⟨input⟩ invocation.output = some path →
      ∃ place, tree.destination path = .ok place) :
    host.Delivers tree invocation input assembly messages
      (host.deliver tree invocation.verbosity records messages assembly
        (outputPath ⟨input⟩ invocation.output)) := by
  by_cases houtput : invocation.output = some "-"
  · rw [houtput, outputPath]
    simp only [deliver, hwhole.console]
    exact ⟨rfl, rfl, fun _ => ⟨⟨_, host.logs_logged _ _, rfl⟩, rfl⟩, fun h => absurd houtput h⟩
  · have hpath := outputPath_of_ne houtput ⟨input⟩
    obtain ⟨place, hplace⟩ := hopens _ hpath
    rw [hpath]
    simp only [deliver, hwhole.file, hplace]
    refine ⟨rfl, rfl, fun h => absurd h houtput, fun _ =>
      ⟨host.logs_logged _ _, place, hplace, ?_⟩⟩
    simp only [FileTree.after, FileTree.write, hplace]
    exact (FileTree.holds_of_destination hplace).onlyWrites _

end Whole

theorem plain_whole : plain.Whole := ⟨fun _ _ => rfl, fun _ => rfl⟩

/-- A single file, whose program cuts a number to a byte; it compiles with a warning. -/
def cutFile : FileTree := ⟨[], [], [(["main.c"], "char main() { return 300; }\n".toUTF8)]⟩

end Host

end AccumulatorC
