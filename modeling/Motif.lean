import Motif.CommandLine.Run
import Motif.Construct.Constructor
import Motif.Dispatch.Table
import Motif.Main
import Motif.Proofs.Closure
import Motif.Proofs.Decision
import Motif.Proofs.Frame
import Motif.Proofs.Answer
import Motif.Proofs.Pruning
import Motif.Proofs.Building
import Motif.Proofs.Script
import Motif.Proofs.Budget
import Motif.Proofs.Naming
import Motif.Proofs.Reading
import Motif.Proofs.RoundTrip
import Motif.Proofs.Grammar
import Motif.Proofs.Shallow
import Motif.Proofs.Labels
import Motif.Proofs.Interchange
import Motif.Proofs.Feedback
import Motif.Proofs.Provenance
import Motif.Proofs.History
import Motif.Proofs.Attempts
import Motif.Proofs.Equivalence
import Motif.Proofs.Strictness
import Motif.Proofs.Reassembly
import Motif.Proofs.Choice
import Motif.Proofs.Repeating
import Motif.Proofs.Resemblance
import Motif.Proofs.Flat
import Motif.Proofs.Transcript
import Motif.Proofs.Telling
import Motif.Proofs.Consumption
import Motif.Proofs.Insertion
import Motif.Proofs.Framing
import Motif.Proofs.Logbook
import Motif.Proofs.Entrances
import Motif.Proofs.Environment
import Motif.Proofs.Expression
