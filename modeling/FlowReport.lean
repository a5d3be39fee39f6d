import FlowReport.Main
import FlowReport.Proofs.Chunks
import FlowReport.Proofs.Join
import FlowReport.Proofs.Scan
import FlowReport.Proofs.Partition
import FlowReport.Proofs.BlockRange
import FlowReport.Proofs.Layout
import FlowReport.Proofs.RoundTrip
import FlowReport.Proofs.Effects
import FlowReport.Proofs.PageNames
import FlowReport.Proofs.PageRuns
import FlowReport.Proofs.ReportRuns
import FlowReport.Proofs.Concatenation
import FlowReport.Proofs.Companions
import FlowReport.Proofs.Completeness
import FlowReport.Proofs.KeptPages
import FlowReport.Proofs.DecompiledPages
import FlowReport.Proofs.Stability
import FlowReport.Proofs.Decompilation
import FlowReport.Proofs.Paging
import FlowReport.Proofs.PageFiles
import FlowReport.Proofs.Faults
import FlowReport.Proofs.FailingPages
import FlowReport.Proofs.Documents
import FlowReport.Proofs.Records
import FlowReport.Proofs.JsonRoundTrip
import FlowReport.Proofs.Filling
import FlowReport.Proofs.PageReferences
import FlowReport.Proofs.Links
import FlowReport.Proofs.Marks
import FlowReport.Proofs.Confinement
import FlowReport.Proofs.PageOrder
import FlowReport.Proofs.ImplicitBlocks
import FlowReport.Proofs.Replacement
import FlowReport.Proofs.Terminators
import FlowReport.Proofs.Escapes
import FlowReport.Proofs.Fields
import FlowReport.Proofs.FileNodes
import FlowReport.Proofs.Signatures
import FlowReport.Proofs.EntryBlocks
import FlowReport.Proofs.Rejections
import FlowReport.Proofs.Fragments
import FlowReport.Proofs.Highlighting
import FlowReport.Proofs.CodeLines
import FlowReport.Proofs.QuotedNames
import FlowReport.Proofs.NodeLayout
import FlowReport.Proofs.Substitution
import FlowReport.Proofs.FieldLists
import FlowReport.Proofs.Siblings
