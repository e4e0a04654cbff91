import GlyphTable.Binary64.Fused
import GlyphTable.Binary64.Order
import GlyphTable.Binary64.Shortest
import GlyphTable.Block
import GlyphTable.Document
import GlyphTable.Geometry.Box
import GlyphTable.Geometry.Orientation
import GlyphTable.Geometry.Point
import GlyphTable.Geometry.Span
import GlyphTable.Glyph
import GlyphTable.Hash.Sha256
import GlyphTable.Hash.Word64
import GlyphTable.InPlace
import GlyphTable.Page
import GlyphTable.Page.Address
import GlyphTable.Page.Patching
import GlyphTable.Partition
import GlyphTable.Patch
import GlyphTable.PointTree
import GlyphTable.Proofs.Binary64.Halving
import GlyphTable.Proofs.Binary64.Midpoint
import GlyphTable.Proofs.Binary64.Monotone
import GlyphTable.Proofs.Binary64.Overflow
import GlyphTable.Proofs.Binary64.Packing
import GlyphTable.Proofs.Binary64.Ranked
import GlyphTable.Proofs.Binary64.Rounding
import GlyphTable.Proofs.Binary64.Signs
import GlyphTable.Proofs.Binary64.Whole
import GlyphTable.Proofs.Block.Single
import GlyphTable.Proofs.Block.Stacking
import GlyphTable.Proofs.Document.Calls
import GlyphTable.Proofs.Document.Contents
import GlyphTable.Proofs.Document.InPlace
import GlyphTable.Proofs.Document.Reordering
import GlyphTable.Proofs.Document.Replay
import GlyphTable.Proofs.Geometry.Ahead
import GlyphTable.Proofs.Geometry.Finite
import GlyphTable.Proofs.Geometry.Hull
import GlyphTable.Proofs.Geometry.Reach
import GlyphTable.Proofs.Grid.Layout
import GlyphTable.Proofs.Grid.Links
import GlyphTable.Proofs.Grid.Segments
import GlyphTable.Proofs.Grid.Table
import GlyphTable.Proofs.Page.Conservation
import GlyphTable.Proofs.Page.RowByRow
import GlyphTable.Proofs.Page.Table
import GlyphTable.Proofs.Page.Trace
import GlyphTable.Proofs.Page.Vetoed
import GlyphTable.Proofs.Partition.Calls
import GlyphTable.Proofs.Partition.Components
import GlyphTable.Proofs.Partition.Forest
import GlyphTable.Proofs.Partition.Runs
import GlyphTable.Proofs.PointTree.Depth
import GlyphTable.Proofs.PointTree.Insertion
import GlyphTable.Proofs.PointTree.Query
import GlyphTable.Proofs.PointTree.Sparse
import GlyphTable.Proofs.Regrouping
import GlyphTable.Proofs.Revision.CommonPrefix
import GlyphTable.Proofs.Revision.CommonWords
import GlyphTable.Proofs.Revision.Consistent
import GlyphTable.Proofs.Revision.Coverage
import GlyphTable.Proofs.Revision.Fates
import GlyphTable.Proofs.Revision.Located
import GlyphTable.Proofs.Revision.Neighbours
import GlyphTable.Proofs.Revision.RunContent
import GlyphTable.Proofs.Revision.Simulation
import GlyphTable.Proofs.Revision.SuffixOrder
import GlyphTable.Proofs.Revision.Unchanged
import GlyphTable.Proofs.Revision.Unrepeated
import GlyphTable.Proofs.Row.Arranged
import GlyphTable.Proofs.Row.Cells
import GlyphTable.Proofs.Row.Division
import GlyphTable.Proofs.Row.Grouping
import GlyphTable.Proofs.Row.Inventory
import GlyphTable.Proofs.Row.Placement
import GlyphTable.Proofs.Row.Reordering
import GlyphTable.Proofs.Row.Separation
import GlyphTable.Proofs.Row.Table
import GlyphTable.Proofs.Segment.Coverage
import GlyphTable.Proofs.Segment.Distinct
import GlyphTable.Proofs.Segment.Runs
import GlyphTable.Proofs.Segment.Scan
import GlyphTable.Proofs.Segment.Trees
import GlyphTable.Proofs.Stored.Boxes
import GlyphTable.Proofs.Stored.Number
import GlyphTable.Proofs.Stored.Restored
import GlyphTable.Proofs.Stored.RoundTrip
import GlyphTable.Proofs.Stored.Text
import GlyphTable.Proofs.Stored.Value
import GlyphTable.Revision.CarryOver
import GlyphTable.Revision.CellSequence
import GlyphTable.Revision.CommonRun
import GlyphTable.Revision.Counterparts
import GlyphTable.Revision.Matching
import GlyphTable.Revision.SuffixOrder
import GlyphTable.RevisionId
import GlyphTable.Row
import GlyphTable.Segment
import GlyphTable.Sorting
import GlyphTable.Spacing
import GlyphTable.Stored.Form
import GlyphTable.Stored.Json
import GlyphTable.Stored.Reader
import GlyphTable.Stored.Writer
import GlyphTable.TableError
import GlyphTable.Text.Blank
import GlyphTable.Text.CodeRange
import GlyphTable.Text.Extender
import GlyphTable.Text.Graphic
import GlyphTable.Text.Quoted
import GlyphTable.Veto
import GlyphTable.Proofs.Revision.Lexicographic
import GlyphTable.Proofs.Revision.Acceptance
import GlyphTable.Proofs.Block.Chains
import GlyphTable.Proofs.Segment.Wider
import GlyphTable.Proofs.Block.VetoCounts
import GlyphTable.Proofs.Page.Content
import GlyphTable.Proofs.PointTree.Shape
import GlyphTable.Proofs.Lineage
import GlyphTable.Proofs.Geometry.Spans
import GlyphTable.Proofs.Binary64.Bisection
import GlyphTable.Proofs.PointTree.Ending
import GlyphTable.Proofs.Revision.Columns
