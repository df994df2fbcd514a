import AccumulatorC.Main
import AccumulatorC.Proofs.CharacterStream
import AccumulatorC.Proofs.ShownLines
import AccumulatorC.Proofs.Excerpts
import AccumulatorC.Proofs.IntegerLiterals
import AccumulatorC.Proofs.TokenCoverage
import AccumulatorC.Proofs.SpellingRoundTrip
import AccumulatorC.Proofs.LexicalRecovery
import AccumulatorC.Proofs.IncludedOnce
import AccumulatorC.Proofs.FaultyFiles
import AccumulatorC.Proofs.TypeTexts
import AccumulatorC.Proofs.ScopeTable
import AccumulatorC.Proofs.StackSlots
import AccumulatorC.Proofs.ParserProgress
import AccumulatorC.Proofs.Precedence
import AccumulatorC.Proofs.RoundTrip
import AccumulatorC.Proofs.LexicalScoping
import AccumulatorC.Proofs.NarrowingWarnings
import AccumulatorC.Proofs.ReportedPlaces
import AccumulatorC.Proofs.Places
import AccumulatorC.Proofs.ConstantFolding
import AccumulatorC.Proofs.ExpressionCode
import AccumulatorC.Proofs.CallSequence
import AccumulatorC.Proofs.FunctionCode
import AccumulatorC.Proofs.StepOperands
import AccumulatorC.Proofs.RegisterDiscipline
import AccumulatorC.Proofs.RegisterNeed
import AccumulatorC.Proofs.StackDiscipline
import AccumulatorC.Proofs.Refusals
import AccumulatorC.Proofs.WideOperations
import AccumulatorC.Proofs.GlobalData
import AccumulatorC.Proofs.StringData
import AccumulatorC.Proofs.LocalLabels
import AccumulatorC.Proofs.LabelCollisions
import AccumulatorC.Proofs.OperandTexts
import AccumulatorC.Proofs.AddressSpace
import AccumulatorC.Proofs.AllOrNothing
import AccumulatorC.Proofs.DefaultOutput
