import MagSyntax.Main
import MagSyntax.Proofs.Accepted
import MagSyntax.Proofs.Classes
import MagSyntax.Proofs.Enclosing
import MagSyntax.Proofs.Formed
import MagSyntax.Proofs.Layout
import MagSyntax.Proofs.Printed
import MagSyntax.Proofs.PrintedTrees
import MagSyntax.Proofs.Reprinted
import MagSyntax.Proofs.Sources
import MagSyntax.Proofs.Memoized
import MagSyntax.Proofs.Limits
import MagSyntax.Proofs.Placement
import MagSyntax.Proofs.Scanned
import MagSyntax.Proofs.Unplaced
import MagSyntax.Proofs.RoundTrip
import MagSyntax.Proofs.Unwrapped
import MagSyntax.Proofs.Formatting
import MagSyntax.Proofs.HandBuilt
import MagSyntax.Proofs.Spaced
import MagSyntax.Proofs.OpenConditions
import MagSyntax.Proofs.RuleEndings
import MagSyntax.Proofs.DeepGroups
import MagSyntax.Proofs.Readings
import MagSyntax.Proofs.FieldDivision
import MagSyntax.Proofs.OwnElse
import MagSyntax.Proofs.Lossless
import MagSyntax.Proofs.TokenizeEnds
import MagSyntax.Proofs.Gaps
import MagSyntax.Proofs.Coordinates
import MagSyntax.Proofs.Spans
import MagSyntax.Proofs.AssignmentTargets
import MagSyntax.Proofs.Precedence
import MagSyntax.Proofs.FieldNames
import MagSyntax.Proofs.MissingElse
import MagSyntax.Proofs.StringLiterals
import MagSyntax.Proofs.EntryAgreement
import MagSyntax.Proofs.BlockOperands
import MagSyntax.Proofs.NeededPairs
import MagSyntax.Proofs.DigitGroups
import MagSyntax.Proofs.JsonReader
import MagSyntax.Proofs.Records
import MagSyntax.Proofs.RegexGrammar
import MagSyntax.Proofs.Sheets
import MagSyntax.Proofs.PrintFaults
import MagSyntax.Proofs.FailedPrints
import MagSyntax.Proofs.ErrorReports
import MagSyntax.Proofs.OneLine
import MagSyntax.Proofs.Onward
import MagSyntax.Proofs.Furthest
import MagSyntax.Proofs.MemosMet
import MagSyntax.Proofs.CarriageReturns
import MagSyntax.Proofs.FormattedFiles
