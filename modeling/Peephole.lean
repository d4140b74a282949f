import Peephole.CommandLine.Disk
import Peephole.Main
import Peephole.Proofs.Links
import Peephole.Proofs.Threads
import Peephole.Proofs.Running
import Peephole.Proofs.Frames
import Peephole.Proofs.Edits
import Peephole.Proofs.Rewiring
import Peephole.Proofs.Countdown
import Peephole.Proofs.Ordering
import Peephole.Proofs.Reachable
import Peephole.Proofs.Walks
import Peephole.Proofs.Coherence
import Peephole.Proofs.Scheduling
import Peephole.Proofs.Integrity
import Peephole.Proofs.SinglePath
import Peephole.Proofs.Windows
import Peephole.Proofs.Flattening
import Peephole.Proofs.Identities
import Peephole.Proofs.Lines
import Peephole.Proofs.Settled
import Peephole.Proofs.Matches
import Peephole.Proofs.Meaning
import Peephole.Proofs.Soundness
import Peephole.Proofs.Peeping
import Peephole.Proofs.Preservation
import Peephole.Proofs.Reductions
import Peephole.Proofs.Accounting
import Peephole.Proofs.Progress
import Peephole.Proofs.Patterns
import Peephole.Proofs.Completeness
import Peephole.Proofs.NormalForm
import Peephole.Proofs.Grammar
import Peephole.Proofs.Reading
import Peephole.Proofs.Layers
import Peephole.Proofs.Calls
import Peephole.Proofs.Parsing
import Peephole.Proofs.Validity
import Peephole.Proofs.Blocks
import Peephole.Proofs.Acceptance
import Peephole.Proofs.Languages
import Peephole.Proofs.Shapes
import Peephole.Proofs.Lexing
import Peephole.Proofs.Spelling
import Peephole.Proofs.Numerals
import Peephole.Proofs.Writing
import Peephole.Proofs.Rereading
import Peephole.Proofs.Magnitudes
import Peephole.Proofs.Rounding
import Peephole.Proofs.Binary64
import Peephole.Proofs.RoundTrip
import Peephole.Proofs.Folding
import Peephole.Proofs.Nearest
import Peephole.Proofs.Lexemes
import Peephole.Proofs.Shortest
import Peephole.Proofs.Literals
import Peephole.Proofs.Names
import Peephole.Proofs.Provenance
import Peephole.Proofs.Renaming
import Peephole.Proofs.Reoptimizing
import Peephole.Proofs.JsonNesting
import Peephole.Proofs.JsonText
import Peephole.Proofs.JsonPrograms
import Peephole.Proofs.Stepping
import Peephole.Proofs.CanonicalForms
import Peephole.Proofs.Places
import Peephole.Proofs.BasisStates
