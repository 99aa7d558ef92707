import OracleSkills.Python.Text
import OracleSkills.Python.Dict
import OracleSkills.Python.Effect
import OracleSkills.Python.Loop
import OracleSkills.Python.Occurs
import OracleSkills.Python.Lines
import OracleSkills.Python.Words
import OracleSkills.Python.Paths
import OracleSkills.Python.Utf8
import OracleSkills.Python.Reencode
import OracleSkills.Js.Number
import OracleSkills.Yaml.Plain
import OracleSkills.Coding.MarkedLines
import OracleSkills.Coding.Enclosed
import OracleSkills.Coding.Headed
import OracleSkills.Coding.Worklist
import OracleSkills.Greedy.Fit
import OracleSkills.Greedy.Marks
import OracleSkills.Greedy.Raise
import OracleSkills.Regex.Backtrack
import OracleSkills.Frontmatter.Flat
import OracleSkills.Frontmatter.Scalar
import OracleSkills.Files.Tree
import OracleSkills.Files.Steps
import OracleSkills.Files.Links
import OracleSkills.Files.Offsets
import OracleSkills.Concurrency.Interleaving
import OracleSkills.Concurrency.Replace
import OracleSkills.Concurrency.Machine
import OracleSkills.Concurrency.Ranking
import OracleSkills.Concurrency.Service
import OracleSkills.Catalog.FirstWins
import OracleSkills.Catalog.BestWins
import OracleSkills.Writer.Create
import OracleSkills.Server.Frontmatter
import OracleSkills.Writer.RoundTrip
import OracleSkills.Writer.Race
import OracleSkills.Writer.Reconcile
import OracleSkills.Writer.Answer
import OracleSkills.Writer.Verdict
import OracleSkills.Writer.Force
import OracleSkills.Writer.Repairs
import OracleSkills.Tools.SkillDirs
import OracleSkills.Tools.Collect
import OracleSkills.Tools.CollectSpares
import OracleSkills.Tools.CollectTwice
import OracleSkills.Tools.Sync
import OracleSkills.Tools.SyncKeeps
import OracleSkills.Tools.Containment
import OracleSkills.Tools.Accounting
import OracleSkills.Tools.Renamed
import OracleSkills.Tools.CollectIndex
import OracleSkills.Tools.Dedup
import OracleSkills.Tools.SyncShadow
import OracleSkills.Tools.SyncTwice
import OracleSkills.Tools.BadFiles
import OracleSkills.Tools.Interrupted
import OracleSkills.Tools.Commit
import OracleSkills.Tools.Pipeline
import OracleSkills.Server.Rpc
import OracleSkills.Server.Patch
import OracleSkills.Server.PatchRace
import OracleSkills.Server.Index
import OracleSkills.Server.IndexSound
import OracleSkills.Server.Memo
import OracleSkills.Server.Visibility
import OracleSkills.Server.Shown
import OracleSkills.Server.InventoryHook
import OracleSkills.Listing.Accounts
import OracleSkills.Listing.Parse
import OracleSkills.Listing.Simulate
import OracleSkills.Listing.Budget
import OracleSkills.Listing.Predicted
import OracleSkills.Janitor.Cold
import OracleSkills.Listing.Scan
import OracleSkills.Listing.Demotions
import OracleSkills.Janitor.Overrides
import OracleSkills.Janitor.Runs
import OracleSkills.Pairs.Harvest
import OracleSkills.Server.WrittenName
import OracleSkills.Server.PatchTool
import OracleSkills.Server.AllOrNothing
import OracleSkills.Server.SafeJoin
import OracleSkills.Server.Unambiguous
import OracleSkills.Server.StampLines
import OracleSkills.Server.ReadBack
import OracleSkills.Server.Survives
import OracleSkills.Server.PatchFrame
import OracleSkills.Server.Lineage
import OracleSkills.Server.LinkedFiles
import OracleSkills.Server.Session
import OracleSkills.Server.History
import OracleSkills.Server.NearDuplicates
import OracleSkills.Rules.Scope
import OracleSkills.Rules.Pkill
import OracleSkills.Capture.State
import OracleSkills.Capture.Turns
import OracleSkills.Capture.Records
import OracleSkills.Capture.Blind
import OracleSkills.Capture.Budget
import OracleSkills.Capture.Hook
import OracleSkills.Capture.Recapture
import OracleSkills.Capture.Leftovers
import OracleSkills.Capture.Identity
import OracleSkills.Capture.Wrappers
import OracleSkills.Watcher.World
import OracleSkills.Watcher.Loop
import OracleSkills.Watcher.Wakeups
import OracleSkills.Watcher.Embed
import OracleSkills.Watcher.Failures
import OracleSkills.Watcher.Backstop
import OracleSkills.Watcher.Settles
