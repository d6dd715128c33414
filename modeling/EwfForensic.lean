import EwfForensic.Lib.Bytes
import EwfForensic.Lib.Loop
import EwfForensic.Lib.Adler32
import EwfForensic.Lib.Digest
import EwfForensic.Lib.Zlib
import EwfForensic.Lib.Blocks
import EwfForensic.Core.Sections
import EwfForensic.Forensic.Anomaly
import EwfForensic.Forensic.IntegrityV1
import EwfForensic.Forensic.IntegrityV2
import EwfForensic.Forensic.Recover
import EwfForensic.Lib.Lru
import EwfForensic.Core.ChunkTable
import EwfForensic.Core.Open
import EwfForensic.Core.Read
import EwfForensic.Image.Encode
import EwfForensic.Forensic.ScanV1
import EwfForensic.Forensic.ScanIssues
import EwfForensic.Forensic.CleanScan
import EwfForensic.Forensic.SegmentLoss
import EwfForensic.Forensic.CoverageV1
import EwfForensic.Forensic.ScanV2
import EwfForensic.Forensic.Custody
import EwfForensic.Forensic.StoredHash
import EwfForensic.Forensic.CoverageV2
import EwfForensic.Core.Backing
import EwfForensic.Forensic.TwoRuns
import EwfForensic.Forensic.Tamper
import EwfForensic.Forensic.StructureTamper
import EwfForensic.Image.Layout
import EwfForensic.Image.Chain
import EwfForensic.Image.Tables
import EwfForensic.Image.Opening
import EwfForensic.Image.RoundTrip
import EwfForensic.Image.RoundTripV2
import EwfForensic.Forensic.RecoverRun
import EwfForensic.Lib.Interleave
import EwfForensic.Core.TableChunks
import EwfForensic.Core.Concurrent
import EwfForensic.Core.ParallelVerify
import EwfForensic.Core.TwoStores
import EwfForensic.Core.WholeMedia
import EwfForensic.Image.StoredImage
import EwfForensic.Image.TablePrefix
import EwfForensic.Image.Recovery
import EwfForensic.Image.RecoverWhole
import EwfForensic.Image.RecoverDamaged
import EwfForensic.Image.RecoverTruncated
import EwfForensic.Image.Analysis
import EwfForensic.Image.SameMedia
import EwfForensic.Image.Conforming
import EwfForensic.Image.PlacedV2
import EwfForensic.Image.ConformingV2
import EwfForensic.Cli.Handlers
import EwfForensic.Forensic.SectionViews
import EwfForensic.Forensic.RecoverCounts
import EwfForensic.Forensic.ComputeAgrees
import EwfForensic.Forensic.WithProgress
import EwfForensic.Forensic.RecoverLocal
import EwfForensic.Forensic.BadChunks
import EwfForensic.Lib.FileSystem
import EwfForensic.Forensic.RecoverFiles
import EwfForensic.Lib.Panics
import EwfForensic.Forensic.CheckedV1
import EwfForensic.Forensic.CheckedAnalysis
import EwfForensic.Forensic.CheckedV2
import EwfForensic.Forensic.CheckedRecover
import EwfForensic.Forensic.HeaderMetadata
import EwfForensic.Forensic.NoPanic
import EwfForensic.Forensic.ChainReports
import EwfForensic.Image.TruncationOffset
import EwfForensic.Forensic.RecoverFallback
import EwfForensic.Core.DeclaredMedia
import EwfForensic.Core.SourceOrder
import EwfForensic.Forensic.CertifiedMedia
import EwfForensic.Core.FirstChunk
import EwfForensic.Forensic.ChunkLists
import EwfForensic.Core.Geometry
import EwfForensic.Forensic.Inflates
import EwfForensic.Core.SegmentSlots
import EwfForensic.Lib.Cursor
import EwfForensic.Core.Cursor
import EwfForensic.Core.SegmentSource
import EwfForensic.Core.RecordedSections
import EwfForensic.Core.ErrorSections
import EwfForensic.Forensic.HeaderParsers
import EwfForensic.Lib.Ledger
import EwfForensic.Forensic.Progress
import EwfForensic.Core.Ltree
import EwfForensic.Forensic.WalksEnd
import EwfForensic.Lib.Forest
import EwfForensic.Core.Logical
import EwfForensic.Core.LogicalForest
import EwfForensic.Cli.LogicalPaths
import EwfForensic.Core.LogicalRoundTrip
import EwfForensic.Core.LogicalProgress
import EwfForensic.Lib.Hex
import EwfForensic.Core.Extents
import EwfForensic.Core.ReadEntry
import EwfForensic.Core.ReadArithmetic
import EwfForensic.Lib.Utf8
import EwfForensic.Core.SegmentNames
import EwfForensic.Forensic.Discovery
import EwfForensic.Lib.Occurrences
import EwfForensic.Cli.Search
import EwfForensic.Cli.Answers
import EwfForensic.Cli.Extract
import EwfForensic.Forensic.ChunkTiling
import EwfForensic.Lib.Json
import EwfForensic.Lib.JsonText
import EwfForensic.Forensic.Display
import EwfForensic.Forensic.EwfCheck
import EwfForensic.Cli.Listing
import EwfForensic.Lib.Offsets
import EwfForensic.Lib.PartitionPoint
import EwfForensic.Core.SectionSearch
import EwfForensic.Forensic.LocateChunk
import EwfForensic.Core.SectionIndex
import EwfForensic.Image.SectionText
import EwfForensic.Image.ReadingV2
import EwfForensic.Cli.Commands
