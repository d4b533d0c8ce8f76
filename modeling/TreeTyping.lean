import TreeTyping.Category
import TreeTyping.Checker
import TreeTyping.Construct
import TreeTyping.Construct.Parts
import TreeTyping.Construct.Rule
import TreeTyping.Event
import TreeTyping.Fault
import TreeTyping.Forest
import TreeTyping.Phrase
import TreeTyping.Proofs.Assertion
import TreeTyping.Proofs.Columns
import TreeTyping.Proofs.Conclusion
import TreeTyping.Proofs.Conduct
import TreeTyping.Proofs.Coupling
import TreeTyping.Proofs.Derivation
import TreeTyping.Proofs.Entry
import TreeTyping.Proofs.Evaluation
import TreeTyping.Proofs.Failure
import TreeTyping.Proofs.Following
import TreeTyping.Proofs.Growth
import TreeTyping.Proofs.Justification
import TreeTyping.Proofs.Progress
import TreeTyping.Proofs.Recheck
import TreeTyping.Proofs.Refinement
import TreeTyping.Proofs.Rules
import TreeTyping.Proofs.Runs
import TreeTyping.Proofs.Shape
import TreeTyping.Proofs.Stopping
import TreeTyping.Proofs.Subphrases
import TreeTyping.Proofs.Tagging
import TreeTyping.Proofs.Totality
import TreeTyping.Proofs.Visits
import TreeTyping.Step
import TreeTyping.Table
import TreeTyping.Tag
import TreeTyping.Text.DefaultIgnorable
import TreeTyping.Text.ExtendingMark
import TreeTyping.Text.Quoted
import TreeTyping.Text.Unprintable
import TreeTyping.Typing
import TreeTyping.Proofs.Links
import TreeTyping.Proofs.Renaming
import TreeTyping.Proofs.Definitions
import TreeTyping.Proofs.Procedures
import TreeTyping.Proofs.Openings
import TreeTyping.Proofs.Scopes
import TreeTyping.Proofs.Ancestry
import TreeTyping.Proofs.Reports
import TreeTyping.Proofs.Traversal
import TreeTyping.Proofs.Breaks
import TreeTyping.Proofs.Diagnosis
import TreeTyping.Proofs.Untouched
import TreeTyping.Proofs.CountedLoops
import TreeTyping.Proofs.Residue
import TreeTyping.Proofs.Refusals
import TreeTyping.Proofs.StackWalk
import TreeTyping.Proofs.History
import TreeTyping.Proofs.Arrivals
import TreeTyping.Proofs.Frame
import TreeTyping.Proofs.Replay
import TreeTyping.Proofs.Alternatives
import TreeTyping.Proofs.ClassNames
import TreeTyping.Proofs.Quotation
import TreeTyping.Proofs.Printing
import TreeTyping.Proofs.Index
import TreeTyping.Proofs.Lookups
