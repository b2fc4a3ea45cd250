import CompileCache.Artifact.Basic
import CompileCache.Artifact.Diagnostic
import CompileCache.Artifact.Json
import CompileCache.Cache.Basic
import CompileCache.Cache.Entry
import CompileCache.Cache.Home
import CompileCache.Decimal.Shortest
import CompileCache.Digest.Basic
import CompileCache.Digest.Blake3
import CompileCache.Digest.Hex
import CompileCache.Disk.Basic
import CompileCache.Disk.Files
import CompileCache.Disk.Path
import CompileCache.Disk.Walk
import CompileCache.Engine.Basic
import CompileCache.Engine.References
import CompileCache.Error
import CompileCache.Fingerprint
import CompileCache.Glob.Basic
import CompileCache.Glob.Expression
import CompileCache.Glob.Lookup
import CompileCache.Glob.Parser
import CompileCache.Graph
import CompileCache.Json.Basic
import CompileCache.Json.Decode
import CompileCache.Json.Fault
import CompileCache.Json.Numeral
import CompileCache.Json.Printer
import CompileCache.Json.Reader
import CompileCache.KeyMap
import CompileCache.Mini.Analysis
import CompileCache.Mini.Code
import CompileCache.Mini.Engine
import CompileCache.Mini.Line
import CompileCache.Mini.Program
import CompileCache.Mini.Relative
import CompileCache.Mini.Resolve
import CompileCache.Mini.Scope
import CompileCache.Mini.Statement
import CompileCache.Options.Basic
import CompileCache.Options.Check
import CompileCache.Options.File
import CompileCache.Options.Schema
import CompileCache.Proofs.Cache.Store
import CompileCache.Proofs.Digest.Plain
import CompileCache.Proofs.Disk.Leaves
import CompileCache.Proofs.Disk.Paths
import CompileCache.Proofs.Fingerprint.Keys
import CompileCache.Proofs.Freshness.Code
import CompileCache.Proofs.Freshness.Diagnostics
import CompileCache.Proofs.Freshness.Matches
import CompileCache.Proofs.Freshness.Paths
import CompileCache.Proofs.Json.Texts
import CompileCache.Proofs.Mini.Footprint
import CompileCache.Proofs.Run.Log
import CompileCache.Proofs.Run.Progress
import CompileCache.Proofs.Run.Provenance
import CompileCache.Proofs.Session.Emits
import CompileCache.Proofs.Session.Slots
import CompileCache.Proofs.Session.Sound
import CompileCache.Proofs.Session.Tiers
import CompileCache.Proofs.Session.Ways
import CompileCache.Proofs.Tracker.Hashes
import CompileCache.Proofs.Tracker.Observes
import CompileCache.Session.Basic
import CompileCache.Session.Emit
import CompileCache.Session.Host
import CompileCache.Session.Run
import CompileCache.Session.Slot
import CompileCache.Source.Basic
import CompileCache.Source.Closure
import CompileCache.Source.Directory
import CompileCache.Source.World
import CompileCache.Staleness
import CompileCache.Text.Blank
import CompileCache.Text.Bounded
import CompileCache.Text.Pieces
import CompileCache.Tracker.Basic
import CompileCache.Tracker.Table
import CompileCache.Proofs.Disk.Growth
import CompileCache.Proofs.Disk.Spelling
import CompileCache.Cache.Run
import CompileCache.Proofs.Cache.Steps
import CompileCache.Proofs.Cache.Ledger
import CompileCache.Proofs.Cache.Damage
import CompileCache.Proofs.Run.History
import CompileCache.Proofs.Session.Failures
import CompileCache.Proofs.Tracker.Seen
import CompileCache.Proofs.Cache.Folders
import CompileCache.Proofs.Session.Plans
import CompileCache.Proofs.Session.Settling
import CompileCache.Proofs.Session.Batches
import CompileCache.Proofs.Session.Traffic
import CompileCache.Proofs.Session.Frames
import CompileCache.Proofs.Json.Digits
import CompileCache.Proofs.Json.Layout
import CompileCache.Proofs.Tracker.Saved
import CompileCache.Proofs.Session.Saves
import CompileCache.Proofs.Session.Homes
import CompileCache.Proofs.Session.Twins
import CompileCache.Proofs.Session.Kept
import CompileCache.Proofs.Run.Solo
import CompileCache.Proofs.Run.Restart
import CompileCache.Proofs.Tracker.Precedes
import CompileCache.Proofs.Session.Shelves
import CompileCache.Proofs.Run.Versions
import CompileCache.Proofs.Mini.Influence
import CompileCache.Tracker.Run
import CompileCache.Proofs.Tracker.Drift
import CompileCache.Proofs.Tracker.Law
import CompileCache.Proofs.Json.Lossless
import CompileCache.Proofs.Artifact.Texts
import CompileCache.Proofs.Tracker.Resume
import CompileCache.Proofs.Fingerprint.Separation
import CompileCache.Proofs.Disk.Written
import CompileCache.Proofs.Session.Tables
import CompileCache.Proofs.Run.Tables
import CompileCache.Source.Descent
import CompileCache.Proofs.Source.Descent
import CompileCache.Proofs.Mini.Modules
import CompileCache.Proofs.Mini.Exports
import CompileCache.Proofs.Options.Shapes
import CompileCache.Proofs.Options.Decoding
import CompileCache.Proofs.Options.Writing
import CompileCache.Proofs.Source.Worklist
import CompileCache.Proofs.Mini.Typings
import CompileCache.Session.Search
import CompileCache.Proofs.Text.ByteOrder
import CompileCache.Proofs.Session.Registrations
import CompileCache.Proofs.Mini.Constants
import CompileCache.Proofs.Text.Trim
import CompileCache.Proofs.Mini.Lines
import CompileCache.Proofs.Mini.Written
import CompileCache.Proofs.Mini.ModuleCode
import CompileCache.Proofs.Disk.Joined
import CompileCache.Proofs.Mini.Relative
import CompileCache.Proofs.Mini.Normal
import CompileCache.Proofs.Text.Rows
import CompileCache.Proofs.Mini.Positions
import CompileCache.Proofs.Mini.Numerals
import CompileCache.Proofs.Mini.Grammar
import CompileCache.Proofs.Disk.Below
import CompileCache.Proofs.Source.Discovery
