import Stowage.Archive.Bytes
import Stowage.Archive.Contents
import Stowage.Archive.Format
import Stowage.Archive.Member
import Stowage.Archive.Tape
import Stowage.Archive.Write
import Stowage.Archive.Writer
import Stowage.Archive.Zip
import Stowage.Bundle.Bundle
import Stowage.Bundle.PackedManifest
import Stowage.CommandLine.Command
import Stowage.CommandLine.Run
import Stowage.CommandLine.Switch
import Stowage.Compile.CommonJs
import Stowage.Compile.Compiler
import Stowage.Compile.Erase
import Stowage.Compile.SourceType
import Stowage.Compile.Transpile
import Stowage.Config
import Stowage.Config.File
import Stowage.Disk.Basic
import Stowage.Disk.Change
import Stowage.Disk.Edits
import Stowage.Error
import Stowage.Expansion
import Stowage.Glob
import Stowage.Glob.Expansion
import Stowage.Json
import Stowage.Json.Double
import Stowage.Json.Printer
import Stowage.Json.Reader
import Stowage.Main
import Stowage.Manifest
import Stowage.Names
import Stowage.Package.Exports
import Stowage.Package.Layout
import Stowage.Package.Manifests
import Stowage.Package.Place
import Stowage.Package.Specifier
import Stowage.Path
import Stowage.Path.Quoted
import Stowage.Path.Relative
import Stowage.Project
import Stowage.Resolution.Lookup
import Stowage.Resolution.Resolver
import Stowage.Script.Bindings
import Stowage.Script.Cursor
import Stowage.Script.Element
import Stowage.Script.Expression
import Stowage.Script.Letters
import Stowage.Script.Lexer
import Stowage.Script.Parser
import Stowage.Script.Printer
import Stowage.Script.References
import Stowage.Script.Statement
import Stowage.Script.Strict
import Stowage.Script.Token
import Stowage.Script.Tree
import Stowage.Script.Types
import Stowage.Trace.Closure
import Stowage.Trace.Report
import Stowage.Trace.Result
import Stowage.Trace.Tree
import Stowage.Workspace
import Stowage.Workspace.Root
import Stowage.World
import Stowage.Proofs.Archive.Extras
import Stowage.Proofs.Archive.Write
import Stowage.Proofs.Bundle.Assembly
import Stowage.Proofs.Bundle.Excluded
import Stowage.Proofs.Bundle.Inputs
import Stowage.Proofs.Compile.Collisions
import Stowage.Proofs.Expansion.Contained
import Stowage.Proofs.Expansion.Beneath
import Stowage.Proofs.Expansion.Links
import Stowage.Proofs.Trace.Closure
import Stowage.Proofs.Trace.Ignored
import Stowage.Proofs.Trace.Warnings
import Stowage.Proofs.Trace.Explained
import Stowage.Proofs.Config.Merging
import Stowage.Proofs.Disk.Laid
import Stowage.Proofs.Trace.Forest
import Stowage.Proofs.Trace.Drawing
import Stowage.Proofs.Package.Straight
import Stowage.Proofs.Trace.Confined
import Stowage.Proofs.Compile.Needs
import Stowage.Proofs.Compile.Limit
import Stowage.Proofs.Compile.Closure
import Stowage.Proofs.Bundle.Delivered
import Stowage.Proofs.CommandLine.Entries
import Stowage.Proofs.Expansion.Calls
import Stowage.Proofs.Package.Leaves
import Stowage.Proofs.Package.Patterns
import Stowage.Proofs.Package.Specific
import Stowage.Proofs.Package.Requests
import Stowage.Proofs.Workspace.Root
import Stowage.Proofs.Resolution.Places
import Stowage.Proofs.Package.Installed
import Stowage.Proofs.Project.Remembered
import Stowage.Proofs.Archive.Targets
import Stowage.Proofs.Archive.Packed
import Stowage.Proofs.Archive.Levels
import Stowage.Proofs.Archive.Circles
import Stowage.Proofs.Expansion.Excepted
import Stowage.Proofs.Expansion.Missing
import Stowage.Proofs.Expansion.Declarations
import Stowage.Proofs.Script.References
import Stowage.Proofs.Bundle.Repacked
import Stowage.Proofs.Path.Shortest
import Stowage.Proofs.Path.Relative
import Stowage.Proofs.Package.Split
import Stowage.Proofs.Resolution.Extensions
