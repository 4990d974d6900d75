import SlotLayout.Alignment
import SlotLayout.Alignment.Error
import SlotLayout.Cause
import SlotLayout.Collation
import SlotLayout.Collation.Error
import SlotLayout.Collation.Packing
import SlotLayout.Comparison
import SlotLayout.Decimal.Binary64
import SlotLayout.Decimal.Shortest
import SlotLayout.Document.Alignment
import SlotLayout.Document.Error
import SlotLayout.Document.Interval
import SlotLayout.Document.Layout
import SlotLayout.Document.Slot
import SlotLayout.Interval
import SlotLayout.Json.Decode
import SlotLayout.Json.Error
import SlotLayout.Json.Number
import SlotLayout.Json.Record
import SlotLayout.Json.Symbol
import SlotLayout.Json.Text
import SlotLayout.Json.Token
import SlotLayout.Json.Tree
import SlotLayout.Json.Value
import SlotLayout.Label
import SlotLayout.Layout
import SlotLayout.Numeral
import SlotLayout.Report
import SlotLayout.Shape
import SlotLayout.Slot
import SlotLayout.Sweep
import SlotLayout.Text.Blank
import SlotLayout.Text.Hidden
import SlotLayout.Text.Quoted
import SlotLayout.Word
import SlotLayout.Workspace
import SlotLayout.Proofs.Segments
import SlotLayout.Proofs.Alignment
import SlotLayout.Proofs.Expansion
import SlotLayout.Proofs.Packing
import SlotLayout.Proofs.Tilings
import SlotLayout.Proofs.Recursion
import SlotLayout.Proofs.FlatView
import SlotLayout.Proofs.Growth
import SlotLayout.Proofs.Simulation
import SlotLayout.Proofs.Appending
import SlotLayout.Proofs.Relocation
import SlotLayout.Proofs.Consistency
import SlotLayout.Proofs.Positions
import SlotLayout.Proofs.Upgrade
import SlotLayout.Proofs.Unchanged
import SlotLayout.Proofs.Numerals
import SlotLayout.Proofs.Literals
import SlotLayout.Proofs.Reading
import SlotLayout.Proofs.Written
import SlotLayout.Proofs.Records
import SlotLayout.Proofs.Tables
import SlotLayout.Proofs.Documents
import SlotLayout.Proofs.Renderings
import SlotLayout.Proofs.Leaves
import SlotLayout.Proofs.Faults
import SlotLayout.Proofs.Outcome
import SlotLayout.Proofs.Translation
import SlotLayout.Proofs.Relevance
import SlotLayout.Proofs.Places
import SlotLayout.Proofs.Closing
import SlotLayout.Proofs.Separation
import SlotLayout.Proofs.Chains
import SlotLayout.Proofs.Flattening
import SlotLayout.Proofs.Occupancy
import SlotLayout.Proofs.Counts
import SlotLayout.Proofs.Exchange
import SlotLayout.Proofs.Elements
import SlotLayout.Proofs.Lengthening
import SlotLayout.Proofs.Labels
import SlotLayout.Proofs.Words
import SlotLayout.Proofs.Names
import SlotLayout.Proofs.Interchange
import SlotLayout.Proofs.Utf8
import SlotLayout.Proofs.Sources
import SlotLayout.Proofs.Lengths
import SlotLayout.Proofs.Rounds
