import AssetEmbed.Encoding
import AssetEmbed.Glob.Braces
import AssetEmbed.Script.StringLiteral
import AssetEmbed.SourceMap
import AssetEmbed.Glob.Ignore
import AssetEmbed.FileSystem
import AssetEmbed.Embedding
import AssetEmbed.Embedding.Load
import AssetEmbed.Call
import AssetEmbed.Call.Resolve
import AssetEmbed.Modules
import AssetEmbed.Script.Dialect
import AssetEmbed.Script.Tree
import AssetEmbed.Script.Lexeme
import AssetEmbed.Script.Grammar.Semicolon
import AssetEmbed.Script.Grammar.Goal
import AssetEmbed.Script.Grammar.Parameter
import AssetEmbed.Script.Grammar.Type
import AssetEmbed.Script.Grammar.Function
import AssetEmbed.Script.Grammar.Literal
import AssetEmbed.Script.Grammar.Expression
import AssetEmbed.Script.Grammar.Declaration
import AssetEmbed.Script.Grammar.Statement
import AssetEmbed.Script.Bindings
import AssetEmbed.Script.Match
import AssetEmbed.Transform
import AssetEmbed.Yaml.Scalar
import AssetEmbed.Yaml.Token
import AssetEmbed.Yaml.Node
import AssetEmbed.Yaml.Schema
import AssetEmbed.Yaml.Value
import AssetEmbed.Config
import AssetEmbed.Build
import AssetEmbed.CommandLine
import AssetEmbed.FileSystem.Changes
import AssetEmbed.Main
import AssetEmbed.Proofs.Glob.Nesting
import AssetEmbed.Proofs.Glob.Ranges
import AssetEmbed.Proofs.Glob.Expanding
import AssetEmbed.Proofs.Glob.Braces
import AssetEmbed.Proofs.Glob.Groups
import AssetEmbed.Proofs.Script.Nesting
import AssetEmbed.Proofs.Splice
import AssetEmbed.Proofs.Outermost
import AssetEmbed.Proofs.Proposing
import AssetEmbed.Proofs.Rewriting
import AssetEmbed.Proofs.SourceMap.Decoding
import AssetEmbed.Proofs.SourceMap.Tracing
import AssetEmbed.Proofs.FileSystem.Path
import AssetEmbed.Proofs.JsonReading
import AssetEmbed.Proofs.Sorting
import AssetEmbed.Proofs.Loading
import AssetEmbed.Proofs.Sequencing
import AssetEmbed.Proofs.Diagnosing
import AssetEmbed.Proofs.Answering
import AssetEmbed.Proofs.FileSystem.Tree
import AssetEmbed.Proofs.FileSystem.Locating
import AssetEmbed.Proofs.FileSystem.Visiting
import AssetEmbed.Proofs.FileSystem.Reading
import AssetEmbed.Proofs.FileSystem.Reordering
import AssetEmbed.Proofs.Build.Stepping
import AssetEmbed.Proofs.Build.Walking
import AssetEmbed.Proofs.Build.Effects
import AssetEmbed.Proofs.Build.Reordering
import AssetEmbed.Proofs.Searching
import AssetEmbed.Proofs.Build.DryRun
import AssetEmbed.Proofs.Literal
import AssetEmbed.Proofs.Substituting
import AssetEmbed.Proofs.Glob.Matching
import AssetEmbed.Proofs.Glob.Compiling
import AssetEmbed.Proofs.Selecting
import AssetEmbed.Proofs.Pruning
import AssetEmbed.Proofs.Applying
import AssetEmbed.Proofs.Offering
import AssetEmbed.Proofs.Glob.Naming
import AssetEmbed.Proofs.Finding
import AssetEmbed.Proofs.Text.Utf8
import AssetEmbed.Proofs.Text.Utf16
import AssetEmbed.Proofs.Base64
import AssetEmbed.Proofs.Script.Spelling
import AssetEmbed.Proofs.Quoting
import AssetEmbed.Proofs.Encodings
import AssetEmbed.Proofs.Script.Within
import AssetEmbed.Proofs.Placing
import AssetEmbed.Proofs.Resolving
import AssetEmbed.Proofs.Script.Walking
import AssetEmbed.Proofs.Script.Understanding
import AssetEmbed.Proofs.Script.Ranging
import AssetEmbed.Proofs.Script.Binding
import AssetEmbed.Proofs.Script.Scoping
import AssetEmbed.Proofs.Mentioning
import AssetEmbed.Proofs.Build.Reporting
import AssetEmbed.Proofs.Enumerating
import AssetEmbed.Proofs.FileSystem.Normalizing
import AssetEmbed.Proofs.Targeting
import AssetEmbed.Proofs.SourceMap.Addressing
import AssetEmbed.Proofs.Configuring
import AssetEmbed.Proofs.Missing
import AssetEmbed.Proofs.Dividing
