import QueryBatching.CommandLine.FileTree
import QueryBatching.Json.Writer
import QueryBatching.Main
import QueryBatching.Multiplexer.Clock
import QueryBatching.Parse.Expression
import QueryBatching.Proofs.CommandLine.QueryFiles
import QueryBatching.Proofs.Grammar.Commas
import QueryBatching.Proofs.Grammar.Nesting
import QueryBatching.Proofs.Grammar.SyntaxErrors
import QueryBatching.Proofs.Merge.FreshNames
import QueryBatching.Proofs.Merge.Idempotence
import QueryBatching.Proofs.Merge.MappingTables
import QueryBatching.Proofs.Merge.OwnVariables
import QueryBatching.Proofs.Merge.Rejections
import QueryBatching.Proofs.Merge.Selected
import QueryBatching.Proofs.Merge.SharedFragments
import QueryBatching.Proofs.Merge.Stability
import QueryBatching.Proofs.Merge.Success
import QueryBatching.Proofs.Merge.Union
import QueryBatching.Proofs.Parse.Combination
import QueryBatching.Proofs.Response.Demultiplexing
import QueryBatching.Proofs.Response.FieldPaths
import QueryBatching.Proofs.Response.ResponseKeys
import QueryBatching.Proofs.Response.Separation
import QueryBatching.Proofs.Response.Transparency
import QueryBatching.Proofs.Token.Carets
import QueryBatching.Proofs.Token.QuotedLines
import QueryBatching.Proofs.Token.Separated
import QueryBatching.Proofs.Multiplexer.Steps
import QueryBatching.Proofs.Multiplexer.Collection
import QueryBatching.Proofs.Multiplexer.Flush
import QueryBatching.Proofs.Multiplexer.Pipeline
import QueryBatching.Proofs.Multiplexer.VirtualClock
