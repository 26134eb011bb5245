import StyleStream.Text
import StyleStream.Reach
import StyleStream.Sheet
import StyleStream.Config
import StyleStream.Engine
import StyleStream.Proofs.Document
import StyleStream.Proofs.Frames
import StyleStream.Proofs.Closure
import StyleStream.Proofs.Subsets
import StyleStream.Proofs.Simulation
import StyleStream.Proofs.Flow
import StyleStream.Proofs.Matching
import StyleStream.Proofs.Fragments
import StyleStream.Proofs.Compilation
import StyleStream.Proofs.Streaming
import StyleStream.Proofs.Histories
import StyleStream.Proofs.Transparency
import StyleStream.Proofs.Precedence
import StyleStream.Proofs.Provenance
import StyleStream.Proofs.Computed
import StyleStream.Proofs.Nesting
import StyleStream.Proofs.Refusal
import StyleStream.Proofs.Contributions
import StyleStream.Proofs.Subjects
import StyleStream.Proofs.Grouping
import StyleStream.Proofs.Determinization
import StyleStream.Proofs.Regions
import StyleStream.Proofs.Walks
import StyleStream.Proofs.Lookups
import StyleStream.Proofs.Ranges
import StyleStream.Proofs.Machines
import StyleStream.Proofs.Settling
import StyleStream.Proofs.Safety
import StyleStream.Proofs.Winners
import StyleStream.Proofs.Positions
import StyleStream.Proofs.Collection
import StyleStream.Proofs.Openings
import StyleStream.Proofs.Chronology
import StyleStream.Proofs.Naming
import StyleStream.Proofs.Retention
import StyleStream.Proofs.Weights
import StyleStream.Proofs.Hyphens
import StyleStream.Proofs.Words
import StyleStream.Proofs.Exits
import StyleStream.Proofs.Comments
import StyleStream.Proofs.Quotes
