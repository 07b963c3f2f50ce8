import RelatedRows.Deploy.Pool
import RelatedRows.Include.Request
import RelatedRows.Stitch.Turns
import RelatedRows.Stitch.Nested
import RelatedRows.Store.Memory
import RelatedRows.Web.Http
import RelatedRows.Proofs.Plans
import RelatedRows.Proofs.Rows
import RelatedRows.Proofs.Siblings
import RelatedRows.Proofs.Scanning
import RelatedRows.Proofs.Tables
import RelatedRows.Proofs.Batching
import RelatedRows.Proofs.Erasing
import RelatedRows.Proofs.Trimming
import RelatedRows.Proofs.Asked
import RelatedRows.Proofs.Failures
import RelatedRows.Proofs.Remaining
import RelatedRows.Proofs.Settling
import RelatedRows.Proofs.Schedules
import RelatedRows.Proofs.Requests
import RelatedRows.Proofs.Reordering
import RelatedRows.Proofs.UniqueKeys
import RelatedRows.Proofs.Junctions
import RelatedRows.Proofs.Relabelling
import RelatedRows.Proofs.StorageOrder
import RelatedRows.Proofs.Transcripts
import RelatedRows.Proofs.Batches
import RelatedRows.Proofs.Entries
import RelatedRows.Proofs.WellFormed
import RelatedRows.Proofs.Includes
import RelatedRows.Proofs.Depths
import RelatedRows.Proofs.Reports
import RelatedRows.Stitch.Objects
import RelatedRows.Proofs.Links
import RelatedRows.Proofs.Objects
import RelatedRows.Proofs.OwnLists
import RelatedRows.Proofs.Ownership
import RelatedRows.Proofs.Mirrors
import RelatedRows.Proofs.Lockstep
import RelatedRows.Proofs.Finishing
import RelatedRows.Proofs.ObjectRuns
import RelatedRows.Proofs.Tickets
import RelatedRows.Proofs.Wakeups
import RelatedRows.Proofs.Completion
import RelatedRows.Proofs.Sequential
import RelatedRows.Proofs.ShownRows
import RelatedRows.Proofs.Dropped
import RelatedRows.Proofs.Columns
import RelatedRows.Proofs.Issued
import RelatedRows.Proofs.Mentions
import RelatedRows.Proofs.Recording
import RelatedRows.Proofs.Surfacing
import RelatedRows.Proofs.Outcomes
import RelatedRows.Proofs.WrittenBack
import RelatedRows.Proofs.JoinedScans
import RelatedRows.Proofs.Permits
import RelatedRows.Proofs.Shapes
import RelatedRows.Proofs.Matching
import RelatedRows.Proofs.Pages
import RelatedRows.Proofs.Orderings
import RelatedRows.Proofs.Steps
import RelatedRows.Proofs.DefaultOrder
import RelatedRows.Proofs.UniqueLinks
import RelatedRows.Proofs.Conditions
import RelatedRows.Proofs.DerivedRelations
import RelatedRows.Proofs.MergedSorts
import RelatedRows.Proofs.KeyConditions
import RelatedRows.Proofs.Statements
import RelatedRows.Proofs.GraphFaults
import RelatedRows.Proofs.EntryWise
import RelatedRows.Proofs.OptionGrammar
import RelatedRows.Proofs.Addresses
import RelatedRows.Proofs.Pools
