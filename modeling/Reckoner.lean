import Reckoner.Main
import Reckoner.Proofs.RunOutcome
import Reckoner.Proofs.ViablePrefix
import Reckoner.Proofs.Layout
import Reckoner.Proofs.OperandBalance
import Reckoner.Proofs.TextFailures
import Reckoner.Proofs.Pieces
import Reckoner.Proofs.FrontEnds
import Reckoner.Proofs.TypedBack
import Reckoner.Proofs.Literals
import Reckoner.Proofs.GroupCode
import Reckoner.Proofs.ClosingParentheses
import Reckoner.Proofs.UnmatchedClose
import Reckoner.Proofs.LeadingFunction
import Reckoner.Proofs.Indeterminate
import Reckoner.Proofs.Remainder
import Reckoner.Proofs.ShortestDecimal
import Reckoner.Proofs.DisplayedNumber
import Reckoner.Proofs.DisplayOrder
import Reckoner.Proofs.LayoutChoice
import Reckoner.Proofs.Spelling
import Reckoner.Proofs.StackDepth
import Reckoner.Proofs.WaitingOrder
import Reckoner.Proofs.LineFiles
import Reckoner.Proofs.ProgramText
import Reckoner.Proofs.ColumnExpressions
import Reckoner.Proofs.AngleBounds
import Reckoner.Proofs.PowerBounds
