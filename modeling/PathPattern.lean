import PathPattern.Commitment
import PathPattern.Cut
import PathPattern.Document.Settings
import PathPattern.Notice
import PathPattern.Segment.Filling
import PathPattern.Settings.Proposal
import PathPattern.Proofs.Pattern.Literal
import PathPattern.Proofs.Pattern.Rendering
import PathPattern.Proofs.Pattern.Substitution
import PathPattern.Proofs.Search.Safety
import PathPattern.Proofs.Commitment.Relaxation
import PathPattern.Proofs.Pattern.Relaxation
import PathPattern.Proofs.Segment.Grammar
import PathPattern.Proofs.Layout.Counting
import PathPattern.Proofs.Commitment.Remainder
import PathPattern.Proofs.Search.Replacement
import PathPattern.Proofs.Pattern.Freshness
import PathPattern.Proofs.Pattern.Tokens
import PathPattern.Proofs.Settings.Overriding
import PathPattern.Proofs.Search.Passage
import PathPattern.Proofs.Search.Boundaries
