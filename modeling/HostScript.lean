import HostScript.Calculator
import HostScript.Main
import HostScript.Proofs.Assignments
import HostScript.Proofs.BundledFlags
import HostScript.Proofs.ChangeLabels
import HostScript.Proofs.ClosedPrograms
import HostScript.Proofs.CommentedSources
import HostScript.Proofs.DanglingKeywords
import HostScript.Proofs.DeclaredNames
import HostScript.Proofs.DeclaredTypes
import HostScript.Proofs.DefinitionLines
import HostScript.Proofs.Divisions
import HostScript.Proofs.EventDelivery
import HostScript.Proofs.ExitCodes
import HostScript.Proofs.FailedCompiles
import HostScript.Proofs.Footprints
import HostScript.Proofs.Handles
import HostScript.Proofs.HostFrames
import HostScript.Proofs.Imports
import HostScript.Proofs.IntegerExpressions
import HostScript.Proofs.Limits
import HostScript.Proofs.LongestNumerals
import HostScript.Proofs.Notifications
import HostScript.Proofs.Occurrences
import HostScript.Proofs.Ownership
import HostScript.Proofs.ParameterCounts
import HostScript.Proofs.Payloads
import HostScript.Proofs.Preambles
import HostScript.Proofs.Progress
import HostScript.Proofs.RangeRequests
import HostScript.Proofs.Recompiling
import HostScript.Proofs.Reentrancy
import HostScript.Proofs.ReferenceCounts
import HostScript.Proofs.References
import HostScript.Proofs.Remainders
import HostScript.Proofs.Rounding
import HostScript.Proofs.SampleArithmetic
import HostScript.Proofs.SettingLines
import HostScript.Proofs.SideEvaluations
import HostScript.Proofs.SourcePositions
import HostScript.Proofs.Spacing
import HostScript.Proofs.Streams
import HostScript.Proofs.StringLiterals
import HostScript.Proofs.StructuredExecution
import HostScript.Proofs.Substrings
import HostScript.Proofs.Temporaries
import HostScript.Proofs.TotalOrders
import HostScript.Proofs.Unwinding
