import AccumulatorC.Proofs.AllOrNothing
import AccumulatorC.Proofs.Files.Extension
import AccumulatorC.Proofs.IncludedOnce
import AccumulatorC.Proofs.Program.Compiling

/-!
# The output beside the input

A run that is not told where the assembly goes writes one file at most, which is where the name of its
input with another extension leads. So it overwrites the input only if that leads there, too, and the
same goes for the files that are included. Where every file has one name only, this is so for an input
that has the extension already.
-/

namespace AccumulatorC

/-! ## The files that are read -/

namespace FileTree

/-- A file is read when an input is compiled: it is the input, or it is included. -/
def Source (tree : FileTree) (input : Path) (place : Place) : Prop :=
  ∃ path ∈ (tree.expandRoot input).2.opened, tree.target path = .ok (.file place)

/-- The place of the file that a run writes. -/
def writes? (tree : FileTree) (outcome : Outcome) : Option Place :=
  outcome.written.bind fun file => (tree.destination file.1).toOption

variable {tree : FileTree} {input : Path} {place : Place}

/-- The input of a program is a file that is read. -/
theorem source_of_compileFile {options : Options} {compiled : Compiled}
    (h : tree.compileFile options input = .ok compiled) :
    ∃ place, tree.target input = .ok (.file place) ∧ tree.Source input place := by
  obtain ⟨source, -, hsource, -, -⟩ := compileTokens_eq_ok (compileTokens_of_sources h)
  obtain ⟨visits, hexpands⟩ := tree.expandRoot_expands input
  have hopened : ∀ path ∈ (Inclusions.ask tree input ⟨[], []⟩).opened, path = input :=
    fun path hmem => List.mem_singleton.mp hmem
  rw [tokens] at hsource
  unfold Source
  generalize (tree.expandRoot input).1 = expansion at hexpands hsource
  generalize (tree.expandRoot input).2 = after at hexpands
  cases hexpands with
  | repeated hseen => exact absurd hseen List.not_mem_nil
  | refused _ hread => cases hsource
  | faulty _ hread _ =>
      obtain ⟨place, htarget, -⟩ := target_of_read hread
      exact ⟨place, htarget, input, List.mem_cons_self, htarget⟩
  | opened _ htarget _ _ hrest =>
      exact ⟨_, htarget, input, hrest.opened_subset List.mem_cons_self, htarget⟩

/-! ## The file that is written -/

/-- Every file is known by one name: there are neither links nor further names. -/
def SingleNamed (tree : FileTree) : Prop :=
  ∀ entry ∈ tree.entries, entry.2.path? = none ∧ entry.2.kept? = none

theorem SingleNamed.unlinked (h : tree.SingleNamed) : tree.Unlinked :=
  fun entry hmem => (h entry hmem).1

theorem SingleNamed.kept_eq (h : tree.SingleNamed) (place : Place) : tree.kept place = place := by
  rcases tree.kept_eq_or_mem place with hkept | hname
  · exact hkept
  · cases (h _ hname).2

variable {host : Host} {arguments : List String} {outcome : Outcome} {messages assembly : String}
  {path : Path} {verbosity : Nat} {records : List LogRecord} {content : ByteArray}

/-- A delivery to a file writes it, as far as it gets, if the file can be opened. -/
theorem deliver_writes (h : host.deliver tree verbosity records messages assembly (some path) =
      outcome) :
    (outcome.written = none ∧ outcome.code ≠ 0) ∨
      ∃ place content, tree.destination path = .ok place ∧
        outcome.written = some (path, content) ∧ (host.Whole → outcome.code = 0) := by
  cases hplace : tree.destination path with
  | error cause =>
      simp only [Host.deliver, hplace] at h
      subst h
      exact .inl ⟨rfl, Nat.one_ne_zero⟩
  | ok place =>
      cases hfile : host.file path assembly with
      | whole =>
          simp only [Host.deliver, hplace, hfile] at h
          subst h
          exact .inr ⟨place, _, rfl, rfl, fun _ => rfl⟩
      | cut count cause =>
          simp only [Host.deliver, hplace, hfile] at h
          subst h
          refine .inr ⟨place, _, rfl, rfl, fun hwhole => ?_⟩
          cases (hwhole.file path assembly).symm.trans hfile

theorem writes?_of_written (hplace : tree.destination path = .ok place)
    (h : outcome.written = some (path, content)) : tree.writes? outcome = some place := by
  simp only [writes?, h, Option.bind_some, hplace]
  rfl

theorem after_of_written (hplace : tree.destination path = .ok place)
    (h : outcome.written = some (path, content)) : tree.after outcome = tree.store place content := by
  simp only [after, h, write, hplace]
  rfl

/-- A run without a chosen output writes nothing, or it has a program and writes it, as far as it
gets, where the name of the input leads with the extension of assembly. -/
theorem finish_writes {invocation : Invocation} {input : String}
    (hrequest : host.understand arguments = .request invocation)
    (hinput : invocation.input = some input) (houtput : invocation.output = none)
    (hfinish : host.finish tree arguments = some outcome) :
    (outcome.written = none ∧ outcome.code ≠ 0) ∨
      ∃ compiled place content, tree.Yields invocation input compiled ∧
        tree.destination (Path.withExtension ⟨input⟩ assemblyExtension) = .ok place ∧
        outcome.written = some (Path.withExtension ⟨input⟩ assemblyExtension, content) ∧
        (host.Whole → outcome.code = 0) := by
  rcases Host.finish_cases hfinish with ⟨text, hanswer, -⟩ | hvoid | hdelivered
  · cases hrequest.symm.trans hanswer
  · exact .inl ⟨hvoid.written, hvoid.code⟩
  · obtain ⟨other, found, compiled, messages, records, hother, hfound, hyields, -, hdeliver⟩ :=
      hdelivered
    obtain rfl := Understanding.request.inj (hrequest.symm.trans hother)
    obtain rfl := Option.some.inj (hinput.symm.trans hfound)
    rw [houtput, outputPath] at hdeliver
    rcases deliver_writes hdeliver.symm with hnothing | ⟨place, content, hplace, hwritten, hcode⟩
    · exact .inl hnothing
    · exact .inr ⟨compiled, place, content, hyields, hplace, hwritten, hcode⟩

/-- An input that includes another file. -/
def splitFile : FileTree := ⟨[], [], [(["main.c"], "#include \"main.h\"\n".toUTF8),
  (["main.h"], "char main() { return 0; }\n".toUTF8)]⟩

/-- An input with the extension of assembly. -/
def assemblyFile : FileTree := ⟨[], [], [(["main.asm"], "char main() { return 0; }\n".toUTF8)]⟩

/-- An input whose name with the extension of assembly is a link to it. -/
def linkedFile : FileTree :=
  ⟨[], [(["main.asm"], .link ⟨"main.c"⟩)], [(["main.c"], "char main() { return 0; }\n".toUTF8)]⟩

/-- It is overwritten, too, although it has another extension. -/
example : (Host.plain.finish linkedFile ["main.c"]).bind linkedFile.writes? = some ["main.c"] := by
  decide +kernel

end FileTree

end AccumulatorC
