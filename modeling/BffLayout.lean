import BffLayout.Machine
import BffLayout.Text
import BffLayout.Lexis
import BffLayout.Line
import BffLayout.Buffer
import BffLayout.Matching
import BffLayout.Statement
import BffLayout.Indent
import BffLayout.Reindent
import BffLayout.Vocabulary
import BffLayout.Completion
import BffLayout.Report
import BffLayout.CommandLine.Arguments
import BffLayout.CommandLine.FileTree
import BffLayout.CommandLine.Run
import BffLayout.Main
import BffLayout.Proofs.Margin
import BffLayout.Proofs.Content
import BffLayout.Proofs.Lookback
import BffLayout.Proofs.Placing
import BffLayout.Proofs.Layout
import BffLayout.Proofs.Nesting
import BffLayout.Proofs.BlockLine
import BffLayout.Proofs.Outline
import BffLayout.Proofs.Veil
import BffLayout.Proofs.Immunity
import BffLayout.Proofs.WholeText
import BffLayout.Proofs.Editing
import BffLayout.Proofs.InPlace
import BffLayout.Proofs.Preservation
import BffLayout.Proofs.Checking
import BffLayout.Proofs.Continuation
import BffLayout.Proofs.Reading
import BffLayout.Proofs.Notes
import BffLayout.Proofs.LineEnds
import BffLayout.Proofs.Files
import BffLayout.Proofs.Session
import BffLayout.Proofs.Unclosed
import BffLayout.Proofs.Cursor
import BffLayout.Proofs.Returns
import BffLayout.Proofs.Output
import BffLayout.Proofs.Tracking
import BffLayout.Proofs.Crossing
import BffLayout.Proofs.Headers
import BffLayout.Proofs.Typing
import BffLayout.Proofs.Candidates
import BffLayout.Proofs.Bodies
import BffLayout.Proofs.References
import BffLayout.Proofs.Counters
import BffLayout.Proofs.Interruption
import BffLayout.Proofs.Faults
import BffLayout.Proofs.Cuts
import BffLayout.Proofs.Calls
import BffLayout.Proofs.Labels
import BffLayout.Proofs.Scanning
import BffLayout.Proofs.Spans
