import Rypipe.Columnar.ScalarParse
import Rypipe.Columnar.Variants
import Rypipe.Engine.Export
import Rypipe.Alignment
import Rypipe.Engine.Finish
import Rypipe.ArrowExport
import Rypipe.Merge
import Rypipe.DictUnify
import Rypipe.DictRemap
import Rypipe.Engine.EarlyDecision
import Rypipe.Stream.OneSchema
import Rypipe.Engine.Strict
import Rypipe.Engine.Ordinals
import Rypipe.Concat
import Rypipe.Stream.Delivery
import Rypipe.Decoder.Splitting
import Rypipe.Decoder.Boundary
import Rypipe.StreamingParser
import Rypipe.Stream.SchemaCache
import Rypipe.Stream.DiscoveredSlots
import Rypipe.Pipeline.Fusion
import Rypipe.ParallelExport
import Rypipe.Projection
import Rypipe.SlotPath
import Rypipe.Engine.Unfinished
import Rypipe.Engine.Hooks
import Rypipe.Engine.Leftovers
import Rypipe.Engine.Memory
import Rypipe.Engine.Moves
import Rypipe.Spill
import Rypipe.Spill.Accounting
import Rypipe.BlockMasks.Cache
import Rypipe.BlockMasks.Cursor
import Rypipe.BlockMasks.Calls
import Rypipe.Columnar.Offsets
import Rypipe.Predicate.Decimal
import Rypipe.Engine.DecimalFilter
import Rypipe.Engine.DecimalCells
import Rypipe.StreamingParser.Feeding
import Rypipe.Scan
import Rypipe.Decoder.SkipRegions
import Rypipe.EarlyStop
import Rypipe.Columnar.Promotion
import Rypipe.Engine.PromotedExport
import Rypipe.FailedMerge
import Rypipe.FailedMerge.Export
import Rypipe.Plan.TypeSpec
import Rypipe.LimitReader
import Rypipe.Spill.Consumer
import Rypipe.Plan.FilterSpec
import Rypipe.Spill.Batches
import Rypipe.Spill.Runs
import Rypipe.Recheck.Export
import Rypipe.Recheck
import Rypipe.Engine.FilteredRun
import Rypipe.Stream.Returns
import Rypipe.Stream.Iterator
import Rypipe.Spill.AnyConsumer
import Rypipe.Stream.SerialIterator
import Rypipe.Stream.FilteredStream
import Rypipe.Spill.FilteredRuns
import Rypipe.ParallelExport.Filtered
