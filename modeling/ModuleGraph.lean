import ModuleGraph.Analysis.Basic
import ModuleGraph.Backup.Basic
import ModuleGraph.Backup.Record
import ModuleGraph.Command.Arguments
import ModuleGraph.Command.Basic
import ModuleGraph.Command.Outcome
import ModuleGraph.Command.Run
import ModuleGraph.Dependencies
import ModuleGraph.Drawing.Dot
import ModuleGraph.Drawing.Page
import ModuleGraph.Drawing.Selection
import ModuleGraph.Fault
import ModuleGraph.Files.Change
import ModuleGraph.Files.Scan
import ModuleGraph.Files.Tree
import ModuleGraph.Files.Walk
import ModuleGraph.Graph.Basic
import ModuleGraph.Graph.Cycle
import ModuleGraph.Graph.Ranking
import ModuleGraph.Main
import ModuleGraph.Moment
import ModuleGraph.Notice
import ModuleGraph.Number.Binary64
import ModuleGraph.Number.Shortest
import ModuleGraph.Path
import ModuleGraph.Report.Cycles
import ModuleGraph.Report.Document
import ModuleGraph.Report.Imports
import ModuleGraph.Report.Respellings
import ModuleGraph.Report.Statistics
import ModuleGraph.Report.Unused
import ModuleGraph.Report.Validation
import ModuleGraph.Resolver
import ModuleGraph.Respell.Aliasing
import ModuleGraph.Respell.Basic
import ModuleGraph.Respell.Files
import ModuleGraph.Respell.Project
import ModuleGraph.Respell.Rule
import ModuleGraph.Screen
import ModuleGraph.Session
import ModuleGraph.Settings.Basic
import ModuleGraph.Settings.Check
import ModuleGraph.Settings.Stored
import ModuleGraph.Source.Basic
import ModuleGraph.Source.Binding
import ModuleGraph.Source.Extract
import ModuleGraph.Source.Load
import ModuleGraph.Source.Statement
import ModuleGraph.Source.Unused
import ModuleGraph.Specifier
import ModuleGraph.Text.Basic
import ModuleGraph.Text.Blank
import ModuleGraph.Text.Cursor
import ModuleGraph.Text.Lines
import ModuleGraph.Text.Printable
import ModuleGraph.Text.Utf8
import ModuleGraph.Text.Word
import ModuleGraph.Value.Basic
import ModuleGraph.Value.JsonReader
import ModuleGraph.Value.JsonWriter
import ModuleGraph.Value.Shown
import ModuleGraph.Value.TomlReader
import ModuleGraph.Value.TomlScalar
import ModuleGraph.Value.TomlWriter
import ModuleGraph.Proofs.Graph.Built
import ModuleGraph.Proofs.Graph.Layout
import ModuleGraph.Proofs.Graph.Search
import ModuleGraph.Proofs.Graph.Rounds
import ModuleGraph.Proofs.Dependencies
import ModuleGraph.Proofs.Graph.Cycles
import ModuleGraph.Proofs.Command.CheckCycles
import ModuleGraph.Proofs.Path
import ModuleGraph.Proofs.Path.Follow
import ModuleGraph.Proofs.Path.Way
import ModuleGraph.Proofs.Path.Directory
import ModuleGraph.Proofs.Respell.Aliasing
import ModuleGraph.Proofs.Respell.Recorded
import ModuleGraph.Proofs.Respell.Meaning
import ModuleGraph.Proofs.Respell.Respelt
import ModuleGraph.Proofs.Respell.Rewriting
import ModuleGraph.Proofs.Text.Utf8
import ModuleGraph.Proofs.Source.Level
import ModuleGraph.Proofs.Source.Finds
import ModuleGraph.Proofs.Source.Forms
import ModuleGraph.Proofs.Source.Reading
import ModuleGraph.Proofs.Source.Extraction
import ModuleGraph.Proofs.Files.Shape
import ModuleGraph.Proofs.Respell.Written
import ModuleGraph.Proofs.Targets
import ModuleGraph.Proofs.Respell.Project
import ModuleGraph.Proofs.Resolver
import ModuleGraph.Proofs.Respell.Preserved
import ModuleGraph.Proofs.Respell.Lead
import ModuleGraph.Proofs.Respell.Replacement
import ModuleGraph.Proofs.Respell.Sweep
import ModuleGraph.Proofs.Respell.Settled
import ModuleGraph.Proofs.Respell.Again
import ModuleGraph.Proofs.Files.Tree
import ModuleGraph.Proofs.Files.Walk
import ModuleGraph.Proofs.Files.Change
import ModuleGraph.Proofs.Files.Scan
import ModuleGraph.Proofs.Text.Order
import ModuleGraph.Proofs.Text.Digits
import ModuleGraph.Proofs.Moment
import ModuleGraph.Proofs.Value.Json
import ModuleGraph.Proofs.Settings
import ModuleGraph.Proofs.Backup.Record
import ModuleGraph.Proofs.Backup.Place
import ModuleGraph.Proofs.Backup.Copy
import ModuleGraph.Proofs.Backup.Create
import ModuleGraph.Proofs.Backup.Restore
import ModuleGraph.Proofs.Backup.Edited
import ModuleGraph.Proofs.Backup.Store
import ModuleGraph.Proofs.Backup.History
import ModuleGraph.Proofs.Respell.Undone
import ModuleGraph.Proofs.Accounts
import ModuleGraph.Proofs.Respell.DryRun
import ModuleGraph.Proofs.Files.Coverage
import ModuleGraph.Proofs.Text.Lines
import ModuleGraph.Proofs.Source.Printed
import ModuleGraph.Proofs.Source.Recognised
import ModuleGraph.Proofs.Source.Silent
import ModuleGraph.Proofs.Source.Inverse
import ModuleGraph.Proofs.Source.Leads
import ModuleGraph.Proofs.Respell.Lines
import ModuleGraph.Proofs.Respell.Printing
import ModuleGraph.Proofs.Respell.Reach
import ModuleGraph.Proofs.Text.LineEnds
import ModuleGraph.Proofs.Text.Twin
import ModuleGraph.Proofs.Source.LineEnds
import ModuleGraph.Proofs.Respell.LineEnds
import ModuleGraph.Proofs.Report.Validation
import ModuleGraph.Proofs.Settings.Stored
import ModuleGraph.Proofs.Command.Validate
import ModuleGraph.Proofs.Text.Clean
import ModuleGraph.Proofs.Value.Texts
import ModuleGraph.Proofs.Respell.Touched
import ModuleGraph.Proofs.Respell.Framed
import ModuleGraph.Proofs.Respell.Records
import ModuleGraph.Proofs.Respell.Clean
import ModuleGraph.Proofs.Command.Transform
import ModuleGraph.Proofs.Respell.Inside
import ModuleGraph.Proofs.Resolver.Inside
import ModuleGraph.Proofs.Respell.Depth
import ModuleGraph.Proofs.Respell.Passes
import ModuleGraph.Proofs.Resolver.Order
import ModuleGraph.Proofs.Source.Offsets
import ModuleGraph.Proofs.Source.Bindings
import ModuleGraph.Proofs.Dependencies.Nodes
import ModuleGraph.Proofs.Graph.Rings
import ModuleGraph.Proofs.Graph.Once
import ModuleGraph.Proofs.Text.Tokens
import ModuleGraph.Proofs.Source.Unused
import ModuleGraph.Proofs.Source.Alone
import ModuleGraph.Proofs.Dependencies.Reexports
import ModuleGraph.Proofs.Drawing.Selection
import ModuleGraph.Proofs.Drawing.Dot
import ModuleGraph.Proofs.Drawing.Page
import ModuleGraph.Proofs.Drawing.Marked
import ModuleGraph.Proofs.Path.Below
import ModuleGraph.Proofs.Files.Writes
import ModuleGraph.Proofs.Backup.Inside
import ModuleGraph.Proofs.Settings.Accepted
import ModuleGraph.Proofs.Backup.Readable
import ModuleGraph.Proofs.Command.ListBackups
import ModuleGraph.Proofs.Backup.Once
import ModuleGraph.Proofs.Respell.Bytes
import ModuleGraph.Proofs.Path.Display
import ModuleGraph.Proofs.Report.Cycles
import ModuleGraph.Proofs.Report.Statistics
import ModuleGraph.Proofs.Settings.Values
import ModuleGraph.Proofs.Settings.Options
import ModuleGraph.Proofs.Value.Alike
import ModuleGraph.Proofs.Settings.Loaded
import ModuleGraph.Proofs.Files.Above
import ModuleGraph.Proofs.Settings.Reloaded
import ModuleGraph.Proofs.Settings.Saved
import ModuleGraph.Proofs.Graph.Edges
import ModuleGraph.Proofs.Sorting
import ModuleGraph.Proofs.Report.Rankings
import ModuleGraph.Proofs.Graph.Additions
import ModuleGraph.Proofs.Source.Gathered
import ModuleGraph.Proofs.Files.Order
import ModuleGraph.Proofs.Files.Beside
import ModuleGraph.Proofs.Value.Chunks
import ModuleGraph.Proofs.Report.Stored
import ModuleGraph.Proofs.Report.Writable
import ModuleGraph.Proofs.Graph.Course
import ModuleGraph.Proofs.Graph.Account
