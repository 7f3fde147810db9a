import SelectiveSync.Config.Names
import SelectiveSync.Path.Normal
import SelectiveSync.Path.Written
import SelectiveSync.Rule.Synthesis
import SelectiveSync.Text.Lossy
import SelectiveSync.Text.Shell
import SelectiveSync.Transfer.Run
import SelectiveSync.Format.Json.Reader
import SelectiveSync.Format.Json.Writer
import SelectiveSync.Format.Toml.Text
import SelectiveSync.Format.Toml.Reader
import SelectiveSync.Format.Toml.Writer
import SelectiveSync.Registry.Stored
import SelectiveSync.System.World
import SelectiveSync.System.Mishap
import SelectiveSync.Path.Canonical
import SelectiveSync.Registry.File
import SelectiveSync.Format.Yaml.Writer
import SelectiveSync.Format.Yaml.Reader
import SelectiveSync.Config.Dir
import SelectiveSync.System.Script.Run
import SelectiveSync.Registry.Edit
import SelectiveSync.Cli.Run
import SelectiveSync.Main
import SelectiveSync.Proofs.Tree.Lookup
import SelectiveSync.Proofs.Tree.Path
import SelectiveSync.Proofs.Tree.Ancestry
import SelectiveSync.Proofs.Tree.Parsing
import SelectiveSync.Proofs.Tree.WellFormed
import SelectiveSync.Proofs.Tree.Listing
import SelectiveSync.Proofs.Tree.Ruling
import SelectiveSync.Proofs.Tree.Reachable
import SelectiveSync.Proofs.Rule.Corruption
import SelectiveSync.Proofs.Rule.Validity
import SelectiveSync.Proofs.Tree.Ledger
import SelectiveSync.Proofs.Tree.Rebuilding
import SelectiveSync.Proofs.Rule.FirstMatch
import SelectiveSync.Proofs.Rule.Meaning
import SelectiveSync.Proofs.Tree.Acceptance
import SelectiveSync.Proofs.Rule.Edits
import SelectiveSync.Proofs.Tree.Frame
import SelectiveSync.Proofs.Tree.Undoing
import SelectiveSync.Proofs.Rule.Commuting
import SelectiveSync.Proofs.Rule.Membership
import SelectiveSync.Proofs.Rule.Stability
import SelectiveSync.Proofs.Rule.Shape
import SelectiveSync.Proofs.Rule.Necessity
import SelectiveSync.Proofs.Rule.Subtree
import SelectiveSync.Proofs.Rule.PassThrough
import SelectiveSync.Proofs.Rule.FilterLine
import SelectiveSync.Proofs.System.FileSystem
import SelectiveSync.Proofs.System.Places
import SelectiveSync.Proofs.System.Direct
import SelectiveSync.Proofs.System.Ways
import SelectiveSync.Proofs.System.Run
import SelectiveSync.Proofs.System.Mishaps
import SelectiveSync.Proofs.System.Interleaving
import SelectiveSync.Proofs.Text.Ends
import SelectiveSync.Proofs.Text.Lines
import SelectiveSync.Proofs.Transfer.FilterFile
import SelectiveSync.Proofs.Path.Order
import SelectiveSync.Proofs.Path.Normal
import SelectiveSync.Proofs.Path.Within
import SelectiveSync.Proofs.Path.Reachable
import SelectiveSync.Proofs.Path.Joining
import SelectiveSync.Proofs.Path.Containment
import SelectiveSync.Proofs.Path.Parents
import SelectiveSync.Proofs.Registry.Runs
import SelectiveSync.Proofs.Registry.Invariant
import SelectiveSync.Proofs.Registry.Locating
import SelectiveSync.Proofs.Path.Same
import SelectiveSync.Proofs.Registry.Keys
import SelectiveSync.Proofs.Toml.Text
import SelectiveSync.Proofs.Toml.Line
import SelectiveSync.Proofs.Toml.Section
import SelectiveSync.Proofs.Toml.Document
import SelectiveSync.Proofs.Registry.RoundTrip
import SelectiveSync.Proofs.Storage.Names
import SelectiveSync.Proofs.Storage.Protocol
import SelectiveSync.Proofs.Storage.Moves
import SelectiveSync.Proofs.Storage.Directories
import SelectiveSync.Proofs.Storage.Atomic
import SelectiveSync.Proofs.Registry.Access
import SelectiveSync.Proofs.Registry.Persistence
import SelectiveSync.Proofs.Registry.Concurrent
import SelectiveSync.Proofs.Rule.Eviction
import SelectiveSync.Proofs.Path.Canonical
import SelectiveSync.Proofs.Path.Resolved
import SelectiveSync.Proofs.Registry.Eviction
import SelectiveSync.Proofs.Cli.Eviction
import SelectiveSync.Proofs.System.Leads
import SelectiveSync.Proofs.Transfer.Command
import SelectiveSync.Proofs.Transfer.CommandLine
import SelectiveSync.Proofs.Storage.Gentle
import SelectiveSync.Proofs.Registry.Leads
import SelectiveSync.Proofs.Cli.Leads
import SelectiveSync.Proofs.Cli.Fetching
import SelectiveSync.Proofs.Cli.Summon
import SelectiveSync.Proofs.Transfer.Spared
import SelectiveSync.Proofs.Cli.Bookkeeping
import SelectiveSync.Proofs.Cli.Commands
import SelectiveSync.Proofs.Cli.Selection
