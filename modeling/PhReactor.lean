import PhReactor.Lib.Base64
import PhReactor.Lib.Boundaries
import PhReactor.Lib.Bursts
import PhReactor.Lib.CanonFold
import PhReactor.Lib.CarefulRun
import PhReactor.Lib.CausalDelivery
import PhReactor.Lib.CrashProgram
import PhReactor.Lib.EachAfter
import PhReactor.Lib.Keyed
import PhReactor.Lib.LabelIndex
import PhReactor.Lib.LastWriter
import PhReactor.Lib.Latest
import PhReactor.Lib.Lines
import PhReactor.Lib.Machine
import PhReactor.Lib.Newest
import PhReactor.Lib.Orders
import PhReactor.Lib.Segments
import PhReactor.Lib.SelfDelimiting
import PhReactor.Lib.Threshold
import PhReactor.Lib.TreeMap
import PhReactor.Json
import PhReactor.Doc
import PhReactor.Action
import PhReactor.Model.L1
import PhReactor.Model.Registry
import PhReactor.Model.Builtins
import PhReactor.Model.Realistic
import PhReactor.Store.Inner
import PhReactor.Store.Api
import PhReactor.Store.Fold
import PhReactor.Store.Apply
import PhReactor.Store.Events
import PhReactor.Sample
import PhReactor.Store.LiveFold
import PhReactor.Store.Writes
import PhReactor.Store.Messages
import PhReactor.Store.ChatLog
import PhReactor.Store.GroupLog
import PhReactor.Store.SpaceBinding
import PhReactor.Store.Snapshots
import PhReactor.Store.Admission
import PhReactor.Store.Membership
import PhReactor.Store.Restart
import PhReactor.Store.FieldMerge
import PhReactor.Store.Lifetime
import PhReactor.Store.Lasting
import PhReactor.Store.Throughout
import PhReactor.Store.MessageArrays
import PhReactor.Store.FieldTypes
import PhReactor.Store.Deletion
import PhReactor.Store.Timestamps
import PhReactor.Store.LocalEdits
import PhReactor.Store.Visibility
import PhReactor.Store.Outbound
import PhReactor.Store.Outcomes
import PhReactor.Store.Failures
import PhReactor.Store.OwnCounters
import PhReactor.Store.Publication
import PhReactor.Store.ChangeFeed
import PhReactor.Store.Authoring
import PhReactor.Store.CallLifetime
import PhReactor.Store.NameIndex
import PhReactor.Store.Preconditions
import PhReactor.Store.SelfQuorum
import PhReactor.Processor
import PhReactor.Store.Names
import PhReactor.Sync.CatchUp
import PhReactor.Sync.Gossip
import PhReactor.Sync.Wire
import PhReactor.Sync.Framing
import PhReactor.Sync.Signatures
import PhReactor.Sync.Engine
import PhReactor.Sync.Publications
import PhReactor.Sync.AuthBans
import PhReactor.Sync.Authenticity
import PhReactor.Sync.Tokens
import PhReactor.Sync.Moves
import PhReactor.Sync.Frames
import PhReactor.Sync.BansTold
import PhReactor.Sync.Replies
import PhReactor.Sync.Handshake
import PhReactor.Sync.ContentGate
import PhReactor.Sync.ModelFetch
import PhReactor.Sync.ReadGate
import PhReactor.Sync.DriveTurns
import PhReactor.Sync.DriveEffects
import PhReactor.Sync.Absorption
import PhReactor.Sync.Pausing
import PhReactor.Sync.Synced
import PhReactor.Sync.Progress
import PhReactor.Sync.Cosign
import PhReactor.Daemon.Invites
import PhReactor.Daemon.Models
import PhReactor.Daemon.Registrations
import PhReactor.Daemon.Config
import PhReactor.Daemon.ConfigKeys
import PhReactor.Daemon.Drives
import PhReactor.Daemon.DriveSync
import PhReactor.Daemon.DriveCommands
import PhReactor.Daemon.DriveRuns
import PhReactor.Update.Release
import PhReactor.Update.Files
import PhReactor.Update.Apply
import PhReactor.Update.Selection
import PhReactor.Update.Recovery
import PhReactor.Package.Trust
import PhReactor.Package.Install
import PhReactor.Package.Uninstall
import PhReactor.Package.Publish
import PhReactor.Package.Served
import PhReactor.Blob.Store
import PhReactor.Encoding
import PhReactor.Views.ReadModel
import PhReactor.Views.ProcessorManager
import PhReactor.Views.Indexes
import PhReactor.Settings.Migrate
import PhReactor.Settings.Migrate.Content
import PhReactor.Settings.Migrate.Failure
import PhReactor.Settings.Plugins
import PhReactor.Store.Wal
import PhReactor.Store.ReplayTwice
import PhReactor.Store.Verify
import PhReactor.Store.TamperEvidence
import PhReactor.Store.TrustOnFirstUse
import PhReactor.Store.HonestLog
import PhReactor.Projection
import PhReactor.Tray.Clicks
import PhReactor.Query.LiveView
import PhReactor.Sync.ChunkReplies
import PhReactor.Lib.Calendar
import PhReactor.Status
import PhReactor.Lib.Worklist
import PhReactor.Reactions
import PhReactor.Processor.Runner
import PhReactor.Lib.JsonText
import PhReactor.Settings.ExtractJson
import PhReactor.Lib.Uri
import PhReactor.Settings.LlmUrl
import PhReactor.Views.Relationships
import PhReactor.Clocks
import PhReactor.ModelRefs
import PhReactor.Store.LogOrder
import PhReactor.LogRotate
import PhReactor.Daemon.ConfigFile
import PhReactor.Daemon.BanList
