import TracedText.Event
import TracedText.Regex.Reading
import TracedText.Script
import TracedText.Proofs.Cut
import TracedText.Proofs.EditTrace
import TracedText.Proofs.SourceEditTrace
import TracedText.Proofs.Boundary
import TracedText.Proofs.SweepTrace
import TracedText.Proofs.Run
import TracedText.Proofs.Thinning
import TracedText.Proofs.Fidelity
import TracedText.Proofs.Remainder
import TracedText.Proofs.NormalForm
import TracedText.Proofs.Atoms
import TracedText.Proofs.AtomEdit
import TracedText.Proofs.Commute
import TracedText.Proofs.Agreement
import TracedText.Proofs.Coverage
import TracedText.Proofs.Hereditary
import TracedText.Proofs.Ancestry
import TracedText.Proofs.Replay
import TracedText.Proofs.Frame
import TracedText.Proofs.Insertion
import TracedText.Proofs.Overhang
import TracedText.Proofs.ReverseSweep
import TracedText.Proofs.Matches
import TracedText.Proofs.Inverted
import TracedText.Proofs.Relabel
import TracedText.Proofs.Rebase
import TracedText.Proofs.Exhaustion
import TracedText.Proofs.Decoding
import TracedText.Proofs.Positions
import TracedText.Proofs.SweepSteps
import TracedText.Proofs.Occurrences
import TracedText.Proofs.Literals
import TracedText.Proofs.Patterns
import TracedText.Proofs.Report
import TracedText.Proofs.Canonical
import TracedText.Proofs.Enclosure
