import Discrepancy.Compare.OptionList
import Discrepancy.Compare.Comparison
import Discrepancy.Journal.Registry
import Discrepancy.Sample.Host
import Discrepancy.Sample.Checkers
import Discrepancy.Wire.Document
import Discrepancy.Wire.Spelling
import Discrepancy.Wire.Literal
import Discrepancy.Proofs.Parts
import Discrepancy.Proofs.KeyOrder
import Discrepancy.Proofs.Tables
import Discrepancy.Proofs.Results
import Discrepancy.Proofs.Inspection
import Discrepancy.Proofs.Rendered
import Discrepancy.Proofs.Descent
import Discrepancy.Proofs.Consultation
import Discrepancy.Proofs.Totality
import Discrepancy.Proofs.Alignment
import Discrepancy.Proofs.Equality
import Discrepancy.Proofs.Reach
import Discrepancy.Proofs.Truth
import Discrepancy.Proofs.Skipping
import Discrepancy.Proofs.Leaves
import Discrepancy.Proofs.Omission
import Discrepancy.Proofs.Passing
import Discrepancy.Proofs.Literals
import Discrepancy.Proofs.Symmetry
import Discrepancy.Proofs.Transitivity
import Discrepancy.Proofs.Thorough
import Discrepancy.Proofs.Shortcuts
import Discrepancy.Proofs.Correspondence
import Discrepancy.Proofs.Simulation
import Discrepancy.Proofs.Reordering
import Discrepancy.Proofs.Rerendering
import Discrepancy.Proofs.Answers
import Discrepancy.Proofs.Delegation
import Discrepancy.Proofs.Layout
import Discrepancy.Proofs.Enumeration
import Discrepancy.Proofs.Digits
import Discrepancy.Proofs.Unquoting
import Discrepancy.Proofs.Locations
import Discrepancy.Proofs.Relocation
import Discrepancy.Proofs.Operations
import Discrepancy.Proofs.Portrayal
import Discrepancy.Proofs.Safety
import Discrepancy.Proofs.Pieces
import Discrepancy.Proofs.OptionGrammar
import Discrepancy.Proofs.ReportText
import Discrepancy.Proofs.PlainText
import Discrepancy.Proofs.Readability
import Discrepancy.Proofs.Lines
import Discrepancy.Proofs.Joining
import Discrepancy.Proofs.Unfolding
import Discrepancy.Proofs.Indentation
import Discrepancy.Proofs.Acceptance
import Discrepancy.Proofs.Hiding
import Discrepancy.Proofs.MissingKeys
import Discrepancy.Proofs.Levels
import Discrepancy.Proofs.KeyLabels
import Discrepancy.Proofs.Distinction
import Discrepancy.Proofs.MapEntries
import Discrepancy.Proofs.Resolution
import Discrepancy.Proofs.Visits
import Discrepancy.Proofs.TrailLog
import Discrepancy.Proofs.SkippedMarks
import Discrepancy.Proofs.Untabbing
import Discrepancy.Proofs.NameGrammar
import Discrepancy.Proofs.TypePhrases
import Discrepancy.Proofs.TypeNames
