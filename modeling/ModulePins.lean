import ModulePins.Cache
import ModulePins.Calendar.Basic
import ModulePins.Calendar.Reader
import ModulePins.Checked
import ModulePins.Command
import ModulePins.Digest.Sha256
import ModulePins.Document
import ModulePins.Environment
import ModulePins.Failure
import ModulePins.File.Folders
import ModulePins.File.Location
import ModulePins.File.Path
import ModulePins.Gate
import ModulePins.Json.Encoding
import ModulePins.Json.Fault
import ModulePins.Json.Printer
import ModulePins.Json.Reader
import ModulePins.Ledger
import ModulePins.Lockfile
import ModulePins.Lockfile.Printer
import ModulePins.Manifest.Argument
import ModulePins.Manifest.ImportPath
import ModulePins.Manifest.Module
import ModulePins.Manifest.Project
import ModulePins.Manifest.Requirement
import ModulePins.Markdown
import ModulePins.Markdown.Block
import ModulePins.Markdown.Inline
import ModulePins.Nesting
import ModulePins.Notice
import ModulePins.Number.Double
import ModulePins.Pinning
import ModulePins.Prompt
import ModulePins.Proofs.Cache
import ModulePins.Proofs.Command
import ModulePins.Proofs.Frozen
import ModulePins.Proofs.Json.Quoted
import ModulePins.Proofs.Pinning
import ModulePins.Proofs.Resolution.Closure
import ModulePins.Proofs.Resolution.Constraints
import ModulePins.Proofs.Resolution.History
import ModulePins.Proofs.Resolution.Registry
import ModulePins.Proofs.Resolution.Replay
import ModulePins.Proofs.Resolution.Sourced
import ModulePins.Proofs.Resolution.Steady
import ModulePins.Proofs.Resolution.Termination
import ModulePins.Proofs.Resolution.Transition
import ModulePins.Proofs.SemVer.Plain
import ModulePins.Proofs.Sequence
import ModulePins.Release.Locator
import ModulePins.Release.Notes
import ModulePins.Resolution.Agenda
import ModulePins.Resolution.Basic
import ModulePins.Resolution.InMemory
import ModulePins.Resolution.Local
import ModulePins.Resolution.Registry
import ModulePins.Resolution.Run
import ModulePins.Resolution.Shelf
import ModulePins.SemVer.Basic
import ModulePins.SemVer.Constraint
import ModulePins.SemVer.Range
import ModulePins.SemVer.Reader
import ModulePins.Session
import ModulePins.Text.Base64
import ModulePins.Text.Blank
import ModulePins.Text.Digit
import ModulePins.Text.Line
import ModulePins.Text.LowerCase
import ModulePins.Text.Printable
import ModulePins.Text.Quoted
import ModulePins.Text.Utf8
import ModulePins.Text.Width
import ModulePins.ToolVersion
import ModulePins.Url.Address
import ModulePins.Url.Basic
import ModulePins.Url.Percent
import ModulePins.Value
import ModulePins.Yaml.Character
import ModulePins.Yaml.Cursor
import ModulePins.Yaml.Fault
import ModulePins.Yaml.Merge
import ModulePins.Yaml.Node
import ModulePins.Yaml.Number
import ModulePins.Yaml.Printer
import ModulePins.Yaml.Property
import ModulePins.Yaml.Reader
import ModulePins.Yaml.Scalar.Block
import ModulePins.Yaml.Scalar.Plain
import ModulePins.Yaml.Scalar.Quoted
import ModulePins.Yaml.Tag
import ModulePins.Yaml.Timestamp
import ModulePins.Yaml.Token
import ModulePins.Yaml.Tokens
import ModulePins.Proofs.Resolution.Ending
import ModulePins.Proofs.Resolution.Completeness
import ModulePins.Proofs.Resolution.Steadfast
import ModulePins.Proofs.Resolution.Reachability
import ModulePins.Proofs.Resolution.Growth
import ModulePins.Proofs.Resolution.Highest
import ModulePins.Proofs.Resolution.Answers
import ModulePins.Proofs.Resolution.Lockstep
import ModulePins.Proofs.Resolution.Warm
import ModulePins.Proofs.Resolution.Turn
import ModulePins.Proofs.Resolution.Unaided
import ModulePins.Proofs.Resolution.Settled
import ModulePins.Proofs.Resolution.Provenance
import ModulePins.Proofs.Resolution.Succession
import ModulePins.Proofs.Resolution.Part
import ModulePins.Proofs.Resolution.Divided
import ModulePins.Proofs.Resolution.Halves
import ModulePins.Proofs.Resolution.Interleaving
import ModulePins.Proofs.Resolution.Recorded
import ModulePins.Proofs.Checked
import ModulePins.Proofs.Argument
import ModulePins.Proofs.Argument.Check
import ModulePins.Proofs.Accepted
import ModulePins.Proofs.Resolution.Queue
import ModulePins.Cache.Folder
import ModulePins.Proofs.TimedCache
import ModulePins.Proofs.Yaml.Cursor
import ModulePins.Proofs.Yaml.Quoted
import ModulePins.Proofs.Yaml.Plain
import ModulePins.Proofs.Yaml.Scan
import ModulePins.Proofs.Yaml.Entry
import ModulePins.Proofs.Yaml.Value
import ModulePins.Proofs.Lockfile.Tokens
import ModulePins.Proofs.Yaml.Allowed
import ModulePins.Proofs.Yaml.Thinned
import ModulePins.Proofs.Lockfile.Nodes
import ModulePins.Proofs.Lockfile.Values
import ModulePins.Proofs.Calendar
import ModulePins.Proofs.Yaml.Kept
import ModulePins.Proofs.Lockfile.RoundTrip
import ModulePins.Proofs.Pinning.Outcome
import ModulePins.Proofs.Gate
import ModulePins.Proofs.Utf8
import ModulePins.Proofs.Corrupt
import ModulePins.Proofs.Resolution.Cleared
import ModulePins.Proofs.SemVer.Marks
import ModulePins.Proofs.SemVer.Spelling
import ModulePins.Proofs.SemVer.Written
import ModulePins.Proofs.SemVer.Prerelease
import ModulePins.Proofs.SemVer.Canonical
import ModulePins.Proofs.SemVer.Normal
import ModulePins.Proofs.SemVer.Groups
import ModulePins.Proofs.SemVer.Joined
import ModulePins.Proofs.SemVer.Pins
import ModulePins.Proofs.SemVer.Precedence
import ModulePins.Proofs.Resolution.Selection
import ModulePins.Proofs.Resolution.Visits
import ModulePins.Proofs.Resolution.Revisits
import ModulePins.Proofs.Argument.Problems
import ModulePins.Proofs.Text.Ascii
import ModulePins.Proofs.Text.Ends
import ModulePins.Proofs.Url
import ModulePins.Proofs.ImportPath
import ModulePins.Proofs.Url.Percent
import ModulePins.Proofs.Path
import ModulePins.Proofs.Location
import ModulePins.Proofs.Refusal
import ModulePins.Proofs.Resolution.Locators
import ModulePins.Proofs.Resolution.Remote
import ModulePins.Proofs.Project
