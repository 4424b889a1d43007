import Statewright.Main
import Statewright.Session
import Statewright.Proofs.Language
import Statewright.Proofs.Spelling
import Statewright.Proofs.Reading
import Statewright.Proofs.GrammarSound
import Statewright.Proofs.GrammarComplete
import Statewright.Proofs.Parsing
import Statewright.Proofs.Annotation
import Statewright.Proofs.WellFormed
import Statewright.Proofs.Lookups
import Statewright.Proofs.Retries
import Statewright.Proofs.Faults
import Statewright.Proofs.Segments
import Statewright.Proofs.Relocation
import Statewright.Proofs.Findings
import Statewright.Proofs.Reachability
import Statewright.Proofs.Identifiers
import Statewright.Proofs.Shown
import Statewright.Proofs.Placement
import Statewright.Proofs.Recovery
import Statewright.Proofs.Pieces
import Statewright.Proofs.SelfCalls
import Statewright.Proofs.Edits
import Statewright.Proofs.Qualified
import Statewright.Proofs.Replacement
import Statewright.Proofs.References
import Statewright.Proofs.Outputs
import Statewright.Proofs.Emission
import Statewright.Proofs.Constants
import Statewright.Proofs.Enclosure
import Statewright.Proofs.Respacing
import Statewright.Proofs.Skipping
import Statewright.Proofs.Margins
import Statewright.Proofs.Literals
import Statewright.Proofs.Progress
import Statewright.Proofs.Slots
import Statewright.Proofs.Labels
import Statewright.Proofs.Landmarks
import Statewright.Proofs.Reports
import Statewright.Proofs.Sections
import Statewright.Proofs.Drawing
import Statewright.Proofs.Tokenizing
import Statewright.Proofs.Delimited
import Statewright.Proofs.Requests
import Statewright.Proofs.Coordinates
import Statewright.Proofs.Words
