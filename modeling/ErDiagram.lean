import ErDiagram.Builder.Session
import ErDiagram.Builder.Stacks
import ErDiagram.Cursor
import ErDiagram.Main
import ErDiagram.Pass.Declaration
import ErDiagram.Proofs.Acceptance
import ErDiagram.Proofs.Acting
import ErDiagram.Proofs.Bodies
import ErDiagram.Proofs.Building
import ErDiagram.Proofs.Compiling
import ErDiagram.Proofs.Constructs
import ErDiagram.Proofs.Containment
import ErDiagram.Proofs.Details
import ErDiagram.Proofs.Diagram
import ErDiagram.Proofs.Drawing
import ErDiagram.Proofs.Fields
import ErDiagram.Proofs.Fitting
import ErDiagram.Proofs.Insertion
import ErDiagram.Proofs.Lookup
import ErDiagram.Proofs.Nesting
import ErDiagram.Proofs.Parsing
import ErDiagram.Proofs.Passage
import ErDiagram.Proofs.Planting
import ErDiagram.Proofs.Scanning
import ErDiagram.Proofs.Spelling
import ErDiagram.Proofs.Tree
import ErDiagram.Proofs.Validity
import ErDiagram.Proofs.References
import ErDiagram.Proofs.Orderly
import ErDiagram.Proofs.WellFormed
import ErDiagram.Proofs.Layout
import ErDiagram.Proofs.Writing
import ErDiagram.Proofs.Confined
import ErDiagram.Proofs.Groups
import ErDiagram.Proofs.Keeping
import ErDiagram.Proofs.Undo
import ErDiagram.Proofs.Sessions
import ErDiagram.Proofs.Recovery
import ErDiagram.Proofs.Blanking
import ErDiagram.Proofs.Reporting
import ErDiagram.Proofs.Isolation
import ErDiagram.Proofs.Faults
import ErDiagram.Proofs.Stops
import ErDiagram.Proofs.Loops
import ErDiagram.Proofs.Advancing
import ErDiagram.Proofs.Following
import ErDiagram.Proofs.Streaming
import ErDiagram.Proofs.Ordering
import ErDiagram.Proofs.Termination
import ErDiagram.Proofs.Chunks
import ErDiagram.Proofs.Resynchronizing
import ErDiagram.Proofs.Balance
import ErDiagram.Proofs.Extending
import ErDiagram.Proofs.Renaming
import ErDiagram.Proofs.Mirroring
import ErDiagram.Proofs.Corresponding
import ErDiagram.Proofs.Respelling
import ErDiagram.Proofs.Relocating
import ErDiagram.Proofs.Exchanging
import ErDiagram.Proofs.Commuting
import ErDiagram.Proofs.Pointing
import ErDiagram.Proofs.Lexemes
import ErDiagram.Proofs.Spacing
import ErDiagram.Proofs.Cursors
import ErDiagram.Proofs.Tiling
import ErDiagram.Proofs.Words
import ErDiagram.Proofs.Tracking
import ErDiagram.Proofs.Wording
import ErDiagram.Proofs.Prefixes
import ErDiagram.Proofs.Earliest
import ErDiagram.Proofs.Identities
import ErDiagram.Proofs.Histories
import ErDiagram.Proofs.Resolution
import ErDiagram.Proofs.Quoting
import ErDiagram.Proofs.Outcomes
import ErDiagram.Proofs.Stacking
import ErDiagram.Proofs.Pairing
import ErDiagram.Proofs.Literals
import ErDiagram.Proofs.Forms
import ErDiagram.Proofs.Splitting
import ErDiagram.Proofs.Unjoining
import ErDiagram.Decoding
import ErDiagram.Proofs.Rereading
import ErDiagram.Proofs.Restoring
import ErDiagram.Proofs.Naming
import ErDiagram.Proofs.Columns
import ErDiagram.Proofs.Lossless
import ErDiagram.Proofs.Normalizing
import ErDiagram.Proofs.Locating
import ErDiagram.Proofs.Interleaving
import ErDiagram.Proofs.Separating
import ErDiagram.Proofs.Classifying
import ErDiagram.Proofs.Hierarchies
import ErDiagram.Proofs.Viewing
import ErDiagram.Proofs.Recursion
import ErDiagram.Proofs.Activations
import ErDiagram.Proofs.Deepest
