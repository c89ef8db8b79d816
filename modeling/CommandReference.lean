import CommandReference.Main
import CommandReference.Rebuild
import CommandReference.Proofs.Simplification.Covering
import CommandReference.Proofs.Simplification.Reduction
import CommandReference.Proofs.Shard.FileName
import CommandReference.Proofs.Json.Text
import CommandReference.Proofs.SortedMap
import CommandReference.Proofs.Json.Number
import CommandReference.Proofs.Json.RoundTrip
import CommandReference.Proofs.Json.Ascii
import CommandReference.Proofs.Published
import CommandReference.Proofs.FileTree.Extension
import CommandReference.Proofs.Path
import CommandReference.Proofs.MemorySource
import CommandReference.Proofs.Shard.Cut
import CommandReference.Proofs.FileTree.Child
import CommandReference.Proofs.FileTree.Action
import CommandReference.Proofs.Shard.Directory
import CommandReference.Proofs.Shard.Store
import CommandReference.Proofs.Definition.Encoding
import CommandReference.Proofs.Definition.Inlining
import CommandReference.Proofs.Definition.Rounds
import CommandReference.Proofs.Loading.Requests
import CommandReference.Proofs.Loading.Advance
import CommandReference.Proofs.Loading.Ending
import CommandReference.Proofs.Compilation.Policies
import CommandReference.Proofs.Compilation.ArgumentCounts
import CommandReference.Proofs.Shard.Rewriting
import CommandReference.Proofs.Loading.Spellings
import CommandReference.Proofs.Definition.Skipping
import CommandReference.Proofs.Command.Collection
import CommandReference.Proofs.Command.Environment
import CommandReference.Proofs.Loading.Accounts
import CommandReference.Proofs.Definition.Reordering
import CommandReference.Proofs.Simplification.Attribution
import CommandReference.Proofs.Simplification.FixedPoint
import CommandReference.Proofs.Text.Order
import CommandReference.Proofs.Database.Invariant
import CommandReference.Proofs.Database.PushOrder
import CommandReference.Proofs.Loading.Depth
import CommandReference.Proofs.Simplification.Exhaustive
import CommandReference.Proofs.Rebuild
import CommandReference.Proofs.Markup.RoundTrip
import CommandReference.Proofs.CommandLine.Agreement
import CommandReference.Proofs.Markup.Acceptance
import CommandReference.Proofs.Definition.Reporting
import CommandReference.Proofs.Shard.Partition
import CommandReference.Proofs.Definition.Grouping
import CommandReference.Proofs.Markup.Escape
import CommandReference.Proofs.Command.Instances
import CommandReference.Proofs.Definition.Invariants
import CommandReference.Proofs.Definition.Texts
import CommandReference.Proofs.Compilation.Invariants
import CommandReference.Proofs.Compilation.Texts
import CommandReference.Proofs.Database.Recovery
import CommandReference.Proofs.Compilation.Recovery
