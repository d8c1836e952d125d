import ByteGrammar.Main
import ByteGrammar.Grammar.Writer
import ByteGrammar.Proofs.ArithmeticText
import ByteGrammar.Proofs.DocumentText
import ByteGrammar.Proofs.ExtractCall
import ByteGrammar.Proofs.GuardMeaning
import ByteGrammar.Proofs.FirstDefect
import ByteGrammar.Proofs.FreshVariables
import ByteGrammar.Proofs.GrammarRoundTrip
import ByteGrammar.Proofs.DocumentSaving
import ByteGrammar.Proofs.ValidNaming
import ByteGrammar.Proofs.DefinitionReading
import ByteGrammar.Proofs.DocumentStructure
import ByteGrammar.Proofs.GrammarLayout
import ByteGrammar.Proofs.ReadingDepth
import ByteGrammar.Proofs.ArgumentSpelling
import ByteGrammar.Proofs.CommandRun
import ByteGrammar.Proofs.DefinedNames
import ByteGrammar.Proofs.PrintedTerms
import ByteGrammar.Proofs.Positions
import ByteGrammar.Proofs.Projection
import ByteGrammar.Proofs.GuardLines
import ByteGrammar.Proofs.WritingFailure
import ByteGrammar.Proofs.Congruence
import ByteGrammar.Proofs.Regrouping
import ByteGrammar.Proofs.BytePolynomial
import ByteGrammar.Proofs.NumeralText
import ByteGrammar.Proofs.SourceOffsets
import ByteGrammar.Proofs.BalancedText
import ByteGrammar.Proofs.UnknownShapes
