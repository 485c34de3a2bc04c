import TrillianServerless.Shared.Go
import TrillianServerless.Shared.Slices
import TrillianServerless.Shared.SparseTree
import TrillianServerless.Shared.Text
import TrillianServerless.Shared.Paths
import TrillianServerless.Shared.Json
import TrillianServerless.Shared.JsonText
import TrillianServerless.Shared.JsonIndent
import TrillianServerless.Shared.Glob
import TrillianServerless.Shared.PerfectNodes
import TrillianServerless.Shared.TreeHash
import TrillianServerless.Shared.CoverMerge
import TrillianServerless.Shared.TreeProof
import TrillianServerless.Shared.TreeBinding
import TrillianServerless.Shared.FileSystem
import TrillianServerless.Shared.Table
import TrillianServerless.Shared.Runs
import TrillianServerless.Shared.Linearize
import TrillianServerless.Shared.Beam
import TrillianServerless.Packages.Compact
import TrillianServerless.Packages.Merkle
import TrillianServerless.Packages.Note
import TrillianServerless.Packages.NoteFormat
import TrillianServerless.Packages.SparseMap
import TrillianServerless.Formats.CombineSignatures
import TrillianServerless.Formats.WitnessHashes
import TrillianServerless.Distributor.UpdateState
import TrillianServerless.Distributor.UpdateOrder
import TrillianServerless.Distributor.SlotFiles
import TrillianServerless.Distributor.Distribute
import TrillianServerless.Distributor.CheckpointN
import TrillianServerless.Witness.Update
import TrillianServerless.Witness.Safety
import TrillianServerless.Witness.RangeCheck
import TrillianServerless.Witness.CompactLog
import TrillianServerless.Witness.Served
import TrillianServerless.Witness.Sql
import TrillianServerless.Feeder.FeedOnce
import TrillianServerless.Witness.Http
import TrillianServerless.Feeder.SumDb
import TrillianServerless.Feeder.SumDbSizes
import TrillianServerless.Serverless.Tile
import TrillianServerless.Serverless.Layout
import TrillianServerless.Serverless.Client
import TrillianServerless.Serverless.ProofBuilder
import TrillianServerless.Serverless.Tracker
import TrillianServerless.Serverless.WitnessConsensus
import TrillianServerless.Serverless.ConsensusRun
import TrillianServerless.Serverless.Consistency
import TrillianServerless.Serverless.Integrate
import TrillianServerless.Serverless.Ranges
import TrillianServerless.Serverless.StateCheck
import TrillianServerless.Serverless.FsStorage
import TrillianServerless.Serverless.TileFill
import TrillianServerless.Serverless.StoreTile
import TrillianServerless.Serverless.TreeUpdate
import TrillianServerless.Serverless.LogTree
import TrillianServerless.Serverless.Sequence
import TrillianServerless.Serverless.SequenceFrame
import TrillianServerless.Serverless.SequenceSafety
import TrillianServerless.Serverless.SequenceSolo
import TrillianServerless.Serverless.SequenceRecovery
import TrillianServerless.Serverless.History
import TrillianServerless.Serverless.IntegrateRetry
import TrillianServerless.Serverless.PartialTiles
import TrillianServerless.Serverless.TileText
import TrillianServerless.Serverless.NodeCache
import TrillianServerless.Serverless.TileCache
import TrillianServerless.Serverless.SeqPaths
import TrillianServerless.Serverless.TileAddresses
import TrillianServerless.Serverless.LogNames
import TrillianServerless.Serverless.Objects
import TrillianServerless.Serverless.WebStorage
import TrillianServerless.Serverless.WebRetry
import TrillianServerless.Serverless.GcsSequence
import TrillianServerless.Serverless.GcsIndex
import TrillianServerless.Serverless.IntegrateFaults
import TrillianServerless.Serverless.GcsHandler
import TrillianServerless.Clone.LogDb
import TrillianServerless.Clone.Bulk
import TrillianServerless.Clone.Cloner
import TrillianServerless.Clone.Verify
import TrillianServerless.Clone.Streaming
import TrillianServerless.SumDbAudit.Database
import TrillianServerless.SumDbAudit.Service
import TrillianServerless.SumDbAudit.Tiles
import TrillianServerless.SumDbAudit.Checks
import TrillianServerless.SumDbAudit.Pipeline
import TrillianServerless.SumDbAudit.PipelineMoves
import TrillianServerless.SumDbAudit.PipelineBalance
import TrillianServerless.SumDbAudit.PipelineRun
import TrillianServerless.SumDbAudit.PipelineSound
import TrillianServerless.SumDbAudit.LeafChanges
import TrillianServerless.SumDbAudit.Sync
import TrillianServerless.SumDbAudit.Golden
import TrillianServerless.SumDbAudit.Mirror
import TrillianServerless.SumDbAudit.Survival
import TrillianServerless.SumDbAudit.Answers
import TrillianServerless.SumDbAudit.LeafData
import TrillianServerless.SumDbAudit.Metadata
import TrillianServerless.Clone.SumDbClone
import TrillianServerless.Clone.TileAligned
import TrillianServerless.Firmware.Log
import TrillianServerless.Firmware.Follower
import TrillianServerless.Firmware.Entries
import TrillianServerless.Firmware.Witness
import TrillianServerless.Firmware.WitnessLock
import TrillianServerless.Firmware.WitnessStore
import TrillianServerless.Firmware.Update
import TrillianServerless.Firmware.AddFirmware
import TrillianServerless.Firmware.MapClient
import TrillianServerless.Firmware.RemoteCheckpoint
import TrillianServerless.Firmware.MapServer
import TrillianServerless.Firmware.MapPipeline
import TrillianServerless.Firmware.MapBuilder
import TrillianServerless.Firmware.Annotations
import TrillianServerless.Firmware.AddAnnotation
import TrillianServerless.Firmware.MapDb
import TrillianServerless.Firmware.Bundle
import TrillianServerless.Firmware.Boot
import TrillianServerless.Firmware.Publisher
import TrillianServerless.BatchMap.Inclusion
import TrillianServerless.BatchMap.CtMap
