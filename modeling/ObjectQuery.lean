import ObjectQuery.Main
import ObjectQuery.Plan.Compile
import ObjectQuery.Plan.Arena
import ObjectQuery.Store.Presentation
import ObjectQuery.Store.Execution
import ObjectQuery.Store.Memory
import ObjectQuery.Store.Relational
import ObjectQuery.Store.Requests
import ObjectQuery.Proofs.Outcome
import ObjectQuery.Proofs.Schema.Validity
import ObjectQuery.Proofs.Schema.Kinds
import ObjectQuery.Proofs.Query.Answer
import ObjectQuery.Proofs.Store.Order
import ObjectQuery.Proofs.Plan.Calls
import ObjectQuery.Proofs.Store.Recall
import ObjectQuery.Proofs.Query.Execution
import ObjectQuery.Proofs.Plan.Reports
import ObjectQuery.Proofs.Store.Upkeep
import ObjectQuery.Proofs.Query.MutationReports
import ObjectQuery.Proofs.Number.Reading
import ObjectQuery.Proofs.Query.Words
import ObjectQuery.Proofs.Query.Scanning
import ObjectQuery.Proofs.Query.Shape
import ObjectQuery.Proofs.Query.Grammar
import ObjectQuery.Proofs.Query.RoundTrip
import ObjectQuery.Proofs.Calendar.Stamps
import ObjectQuery.Proofs.Number.Comparison
import ObjectQuery.Proofs.Store.Cells
import ObjectQuery.Proofs.Store.Layout
import ObjectQuery.Proofs.Store.Contents
import ObjectQuery.Proofs.Store.Insertion
import ObjectQuery.Proofs.Store.Tally
import ObjectQuery.Proofs.Store.Rows
import ObjectQuery.Proofs.Query.Acceptance
import ObjectQuery.Proofs.Query.Agreement
import ObjectQuery.Proofs.Query.Backends
import ObjectQuery.Proofs.Store.Acceptance
import ObjectQuery.Proofs.Query.Divergence
import ObjectQuery.Proofs.Schema.Relations
import ObjectQuery.Proofs.Schema.Conditions
import ObjectQuery.Proofs.Schema.Opposites
import ObjectQuery.Proofs.Schema.Remaking
import ObjectQuery.Proofs.Schema.Cascade
import ObjectQuery.Proofs.Schema.Shrinking
import ObjectQuery.Proofs.Schema.Growing
import ObjectQuery.Proofs.Schema.Evolution
import ObjectQuery.Proofs.Query.Derivation
import ObjectQuery.Proofs.Query.Recognition
import ObjectQuery.Proofs.Query.Tracing
import ObjectQuery.Proofs.Store.Statements
import ObjectQuery.Proofs.Store.Reshaping
import ObjectQuery.Proofs.Store.Recording
import ObjectQuery.Proofs.Store.Removal
import ObjectQuery.Proofs.Store.Migration
import ObjectQuery.Proofs.Store.Catalog
import ObjectQuery.Proofs.Schema.Verdict
import ObjectQuery.Proofs.Calendar.Midnight
import ObjectQuery.Proofs.Number.Range
import ObjectQuery.Proofs.Plan.Refusals
import ObjectQuery.Proofs.Plan.Failures
import ObjectQuery.Store.Answering
import ObjectQuery.Proofs.Plan.Authority
import ObjectQuery.Proofs.Plan.Blocks
import ObjectQuery.Proofs.Plan.Typing
import ObjectQuery.Proofs.Plan.Arena
import ObjectQuery.Proofs.Query.Presentation
import ObjectQuery.Proofs.Plan.Metadata
import ObjectQuery.Proofs.Store.Requests
import ObjectQuery.Proofs.Store.Keys
import ObjectQuery.Proofs.Plan.Planning
import ObjectQuery.Proofs.Query.Stages
import ObjectQuery.Proofs.Query.Blame
import ObjectQuery.Proofs.Query.Canonical
import ObjectQuery.Proofs.Store.Tables
import ObjectQuery.Proofs.Plan.Storage
import ObjectQuery.Proofs.Store.Naming
import ObjectQuery.Proofs.Query.BothEnds
import ObjectQuery.Proofs.Plan.Mutations
import ObjectQuery.Proofs.Schema.Difference
import ObjectQuery.Proofs.Plan.Differences
import ObjectQuery.Proofs.Schema.Required
import ObjectQuery.Proofs.Query.Descriptions
import ObjectQuery.Proofs.Query.Effects
import ObjectQuery.Proofs.Query.Names
import ObjectQuery.Proofs.Query.Namespace
import ObjectQuery.Proofs.Query.Survival
import ObjectQuery.Proofs.Query.Viability
import ObjectQuery.Proofs.Text.Lines
import ObjectQuery.Proofs.Query.Errors
import ObjectQuery.Proofs.Schema.Stumbling
import ObjectQuery.Proofs.Schema.Reporting
import ObjectQuery.Proofs.Schema.Resolution
import ObjectQuery.Proofs.Query.Filtering
import ObjectQuery.Proofs.Store.Matching
import ObjectQuery.Proofs.Store.Paging
import ObjectQuery.Proofs.Schema.Reloading
import ObjectQuery.Proofs.Query.Introspection
import ObjectQuery.Proofs.Query.Braces
import ObjectQuery.Proofs.Query.Continuations
import ObjectQuery.Proofs.Query.Expectations
import ObjectQuery.Proofs.Plan.Nesting
import ObjectQuery.Proofs.Plan.Uniformity
import ObjectQuery.Proofs.Query.BareIds
import ObjectQuery.Proofs.Store.Totals
import ObjectQuery.Proofs.Query.Connections
import ObjectQuery.Proofs.Store.Batches
import ObjectQuery.Proofs.Query.Separators
import ObjectQuery.Proofs.Query.Landmarks
import ObjectQuery.Proofs.Schema.Serialization
import ObjectQuery.Proofs.Schema.Undoing
import ObjectQuery.Proofs.Calendar.Zones
import ObjectQuery.Proofs.Calendar.RoundTrip
import ObjectQuery.Proofs.Scalar.Stability
import ObjectQuery.Proofs.Schema.Independence
import ObjectQuery.Proofs.Schema.Reordering
