import HornSyntax.Main
import HornSyntax.Program.Parse
import HornSyntax.Proofs.Blame
import HornSyntax.Proofs.ErrorPlace
import HornSyntax.Proofs.Leading
import HornSyntax.Proofs.Orderly
import HornSyntax.Proofs.Path
import HornSyntax.Proofs.Series
import HornSyntax.Proofs.Outcome
import HornSyntax.Proofs.MessageLines
import HornSyntax.Proofs.ReportLines
import HornSyntax.Proofs.LineEnds
import HornSyntax.Proofs.Mirror
import HornSyntax.Proofs.Renumbered
import HornSyntax.Proofs.Pointing
import HornSyntax.Proofs.Leftover
import HornSyntax.Proofs.Beyond
import HornSyntax.Proofs.Boundary
import HornSyntax.Proofs.Trailing
import HornSyntax.Proofs.WriteSeries
import HornSyntax.Proofs.LongestMatch
import HornSyntax.Proofs.Forest
import HornSyntax.Proofs.Slices
