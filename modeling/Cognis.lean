import Cognis.Lib.Binary64
import Cognis.Lib.Saturating
import Cognis.Lib.Bracketing
import Cognis.Lib.Growth
import Cognis.Lib.Loop
import Cognis.Lib.Breadth
import Cognis.Lib.Transition
import Cognis.Lib.Diffusion
import Cognis.Lib.Component
import Cognis.Lib.Champion
import Cognis.Lib.Elimination
import Cognis.Lib.Table
import Cognis.Lib.Nearest
import Cognis.Lib.Pool
import Cognis.Lib.Ranking
import Cognis.Lib.Places
import Cognis.Lib.Records
import Cognis.Lib.Utf8
import Cognis.Lib.FileSystem
import Cognis.Lib.PathWalk
import Cognis.Lib.Json
import Cognis.Lib.History
import Cognis.Lib.Program
import Cognis.Lib.Crash
import Cognis.Lib.Rewriting
import Cognis.Lib.Regex
import Cognis.Lib.Script
import Cognis.Lib.Words
import Cognis.Lib.Holds
import Cognis.Lib.Tiling
import Cognis.Lib.CommonMark
import Cognis.Lib.Cursor
import Cognis.Lib.Slices
import Cognis.Core.Models
import Cognis.Core.Complexity
import Cognis.Core.Bases
import Cognis.Core.Nesting
import Cognis.Core.Monotone
import Cognis.Core.Dominance
import Cognis.Core.Graph
import Cognis.Core.Csr
import Cognis.Core.Lease
import Cognis.Core.LeaseGuard
import Cognis.Core.GuardRecord
import Cognis.Core.Identity
import Cognis.Core.Resolve
import Cognis.Store.Database
import Cognis.Store.Open
import Cognis.Store.Publish
import Cognis.Store.Digest
import Cognis.Csar.Push
import Cognis.Csar.Conservation
import Cognis.Csar.Solvers
import Cognis.Csar.Diffuse
import Cognis.Csar.Impact
import Cognis.Csar.Report
import Cognis.Indexer.Text
import Cognis.Indexer.Idents
import Cognis.Indexer.Tarjan
import Cognis.Indexer.Propagation
import Cognis.Indexer.Costs
import Cognis.Indexer.Bottleneck
import Cognis.Indexer.Chains
import Cognis.Indexer.Callers
import Cognis.Indexer.Relabel
import Cognis.Indexer.Order
import Cognis.Indexer.Resolver
import Cognis.Indexer.Rules
import Cognis.Indexer.Headers
import Cognis.Indexer.Part
import Cognis.Indexer.Admission
import Cognis.Indexer.Planner
import Cognis.Indexer.Normalize
import Cognis.Indexer.Artifact
import Cognis.Indexer.Markdown
import Cognis.Indexer.Fences
import Cognis.Indexer.Batch
import Cognis.Indexer.Pipeline
import Cognis.Indexer.Integrity
import Cognis.Indexer.Lookup
import Cognis.Indexer.Dependents
import Cognis.Indexer.Rename
import Cognis.Indexer.Shadow
import Cognis.Csar.Amplification
import Cognis.Indexer.Regression
import Cognis.Indexer.Secrets
import Cognis.Indexer.Attributes
import Cognis.Indexer.Enricher
import Cognis.Indexer.Reindex
import Cognis.Indexer.NoOp
import Cognis.Indexer.EmbedQueue
import Cognis.Indexer.Drain
import Cognis.Indexer.Session
import Cognis.Indexer.Semantic
import Cognis.Indexer.Rebuild
import Cognis.Indexer.Recheck
import Cognis.Indexer.Incremental
import Cognis.Indexer.Watch
import Cognis.Owner.Queue
import Cognis.Owner.Serve
import Cognis.Owner.Workspace
import Cognis.Owner.Probe
import Cognis.Embed.Lifecycle
import Cognis.Embed.Fingerprint
import Cognis.Retrieval.Fusion
import Cognis.Retrieval.Ranks
import Cognis.Retrieval.Capsule
import Cognis.Store.Reads
import Cognis.Store.VecSearch
import Cognis.Store.CodeGraph
import Cognis.Store.Bounded
import Cognis.Mcp.JsonRpc
import Cognis.Mcp.Engine
import Cognis.Mcp.Tools
import Cognis.Mcp.CapsuleText
import Cognis.Mcp.Stages
import Cognis.Mcp.Deadline
import Cognis.Mcp.SemanticFlag
import Cognis.Mcp.StoreEngine
import Cognis.Mcp.ReferenceScan
import Cognis.Mcp.Subgraph
import Cognis.Mcp.VectorSpace
import Cognis.Mcp.VectorIdentity
import Cognis.Mcp.Consistency
import Cognis.Mcp.HttpGate
import Cognis.Mcp.Limiter
import Cognis.Extension.Lease
import Cognis.Extension.Indexd
import Cognis.Extension.McpServer
import Cognis.Extension.Launch
import Cognis.Extension.Toggle
import Cognis.Extension.Activation
import Cognis.Extension.Canonical
import Cognis.Extension.Compatibility
import Cognis.Extension.McpConfig
import Cognis.Extension.Migrate
import Cognis.Extension.Orphan
import Cognis.Mcp.Proxy
import Cognis.Mcp.Wire
import Cognis.Indexer.Yaml
import Cognis.Indexer.Toml
import Cognis.Indexer.LeafSecrets
import Cognis.Indexer.Sql
import Cognis.Indexer.Ddl
import Cognis.Indexer.DdlScan
import Cognis.Indexer.DdlMapping
import Cognis.Indexer.Html
import Cognis.Indexer.Slices
import Cognis.Indexer.Extraction
import Cognis.Indexer.Spans
import Cognis.Indexer.SymbolIds
