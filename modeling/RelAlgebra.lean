import RelAlgebra.Analysis.OfText
import RelAlgebra.Proofs.Analysis.Faults
import RelAlgebra.Proofs.Analysis.Frame
import RelAlgebra.Proofs.Analysis.Homes
import RelAlgebra.Proofs.Analysis.Inference
import RelAlgebra.Proofs.Analysis.Joining
import RelAlgebra.Proofs.Analysis.Numbering
import RelAlgebra.Proofs.Analysis.Places
import RelAlgebra.Proofs.Analysis.Refinement
import RelAlgebra.Proofs.Analysis.Replay
import RelAlgebra.Proofs.Analysis.Session
import RelAlgebra.Proofs.Analysis.Sharing
import RelAlgebra.Proofs.Analysis.SlotNames
import RelAlgebra.Proofs.Analysis.Stable
import RelAlgebra.Proofs.Analysis.Steps
import RelAlgebra.Proofs.Catalog.Declarations
import RelAlgebra.Proofs.Catalog.Exactness
import RelAlgebra.Proofs.Catalog.Grouping
import RelAlgebra.Proofs.Catalog.Lookup
import RelAlgebra.Proofs.Catalog.RoundTrip
import RelAlgebra.Proofs.Catalog.Truncation
import RelAlgebra.Proofs.Catalog.WellFormed
import RelAlgebra.Proofs.Grammar.Cut
import RelAlgebra.Proofs.Grammar.Derivation
import RelAlgebra.Proofs.Grammar.Lexical
import RelAlgebra.Proofs.Grammar.Listing
import RelAlgebra.Proofs.Grammar.Marks
import RelAlgebra.Proofs.Grammar.Names
import RelAlgebra.Proofs.Grammar.Progress
import RelAlgebra.Proofs.Grammar.Ranges
import RelAlgebra.Proofs.Grammar.Validity
import RelAlgebra.Proofs.Grammar.Words
import RelAlgebra.Proofs.Query.Chain
import RelAlgebra.Proofs.Query.Kinding
import RelAlgebra.Proofs.Query.Reports
import RelAlgebra.Proofs.Rendering.Basic
import RelAlgebra.Proofs.Rendering.Program
import RelAlgebra.Proofs.Rendering.Query
import RelAlgebra.Proofs.Rendering.Reading
import RelAlgebra.Proofs.Rendering.Scalar
import RelAlgebra.Proofs.Rendering.Text
import RelAlgebra.Proofs.Rendering.Token
import RelAlgebra.Proofs.Text.Bytes
import RelAlgebra.Proofs.Text.TypeNames
import RelAlgebra.Proofs.Text.Utf8
import RelAlgebra.Proofs.Rendering.Declarations
import RelAlgebra.Proofs.Analysis.Reach
import RelAlgebra.Proofs.Query.Algebra
import RelAlgebra.Proofs.Query.Information
import RelAlgebra.Proofs.Analysis.Operators
import RelAlgebra.Proofs.Catalog.InPlace
import RelAlgebra.Proofs.Text.Canonical
import RelAlgebra.Proofs.Analysis.Columns
import RelAlgebra.Proofs.Grammar.Calls
import RelAlgebra.Proofs.Grammar.Failures
import RelAlgebra.Proofs.Grammar.Termination
import RelAlgebra.Proofs.Query.Writes
import RelAlgebra.Proofs.Analysis.SlotSpelling
