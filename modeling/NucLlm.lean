import NucLlm.Lib.Lists
import NucLlm.Lib.Interleaved
import NucLlm.Lib.Machine
import NucLlm.Lib.Exec
import NucLlm.Lib.Outcomes
import NucLlm.Lib.Sorting
import NucLlm.Lib.Bisect
import NucLlm.Lib.Coupling
import NucLlm.Lib.AvlTree
import NucLlm.Lib.Paired
import NucLlm.Lib.Parsing
import NucLlm.Lib.Buffer
import NucLlm.Lib.Loop
import NucLlm.Lib.Books
import NucLlm.Lib.Consume
import NucLlm.Lib.Walk
import NucLlm.Lib.Splitting
import NucLlm.Lib.Tree
import NucLlm.Lib.PosixPath
import NucLlm.Lib.Pattern
import NucLlm.Lib.Arena
import NucLlm.Lib.Inodes
import NucLlm.Lib.Runs
import NucLlm.Whence.WList
import NucLlm.Whence.WListHistory
import NucLlm.Whence.PMap
import NucLlm.Whence.PMapHistory
import NucLlm.Whence.Ast
import NucLlm.Whence.Token
import NucLlm.Whence.Scopes
import NucLlm.Whence.Parser
import NucLlm.Whence.Grammar
import NucLlm.Whence.ParserSound
import NucLlm.Whence.ParserUnique
import NucLlm.Whence.Accepted
import NucLlm.Whence.Value
import NucLlm.Whence.History
import NucLlm.Whence.Show
import NucLlm.Whence.Double
import NucLlm.Whence.Provenance
import NucLlm.Whence.DeepEq
import NucLlm.Whence.Denotation
import NucLlm.Whence.Diverge
import NucLlm.Whence.Drops
import NucLlm.Whence.Lexer
import NucLlm.Whence.Lexemes
import NucLlm.Whence.Quoting
import NucLlm.Whence.TimeTravel
import NucLlm.Whence.Operators
import NucLlm.Whence.Contracts
import NucLlm.Whence.Guesses
import NucLlm.Whence.TailMarks
import NucLlm.Whence.Evaluation
import NucLlm.Whence.TailCalls
import NucLlm.Whence.Builtins
import NucLlm.Whence.TypeSpecs
import NucLlm.Whence.Numerals
import NucLlm.Whence.Queries
import NucLlm.Whence.Makes
import NucLlm.Whence.MakesOperators
import NucLlm.Whence.MakesNodes
import NucLlm.Whence.MakesBuiltins
import NucLlm.Whence.MakesHistories
import NucLlm.Whence.MakesRuns
import NucLlm.Whence.RunValues
import NucLlm.Whence.Why
import NucLlm.Whence.FullShow
import NucLlm.Whence.Operations
import NucLlm.Whence.Blame
import NucLlm.Whence.Charges
import NucLlm.Whence.Branches
import NucLlm.Whence.BranchRecords
import NucLlm.AgentLoop.Message
import NucLlm.AgentLoop.Context
import NucLlm.AgentLoop.Stubs
import NucLlm.AgentLoop.Compaction
import NucLlm.AgentLoop.Compactions
import NucLlm.AgentLoop.Costs
import NucLlm.AgentLoop.Shrinkage
import NucLlm.AgentLoop.Agent
import NucLlm.AgentLoop.Traversal
import NucLlm.AgentLoop.StepCount
import NucLlm.AgentLoop.Observations
import NucLlm.AgentLoop.Upheld
import NucLlm.AgentLoop.Conversation
import NucLlm.AgentLoop.Anthropic
import NucLlm.AgentLoop.Streaming
import NucLlm.AgentLoop.WirePairing
import NucLlm.AgentLoop.Streams
import NucLlm.AgentLoop.Responses
import NucLlm.AgentLoop.SpendCap
import NucLlm.AgentLoop.Deterministic
import NucLlm.AgentLoop.Replay
import NucLlm.AgentLoop.Resume
import NucLlm.AgentLoop.Recovery
import NucLlm.AgentLoop.RecoverySound
import NucLlm.AgentLoop.RecoveredText
import NucLlm.AgentLoop.CachePrefix
import NucLlm.AgentLoop.SharedBlocks
import NucLlm.Swe.Ddmin
import NucLlm.Swe.Shrink
import NucLlm.Swe.Literals
import NucLlm.Swe.ShrinkLines
import NucLlm.Swe.ShrinkRuns
import NucLlm.Swe.ShrinkKeeps
import NucLlm.Swe.ShrinkFrame
import NucLlm.Swe.Killers
import NucLlm.Swe.SlowPlan
import NucLlm.Swe.LinkCopy
import NucLlm.Swe.LinkSound
import NucLlm.Swe.LinkMutants
import NucLlm.Swe.LinkRuns
import NucLlm.Swe.LinkWitness
import NucLlm.Swe.MutationAst
import NucLlm.Swe.MutationSites
import NucLlm.Swe.CoverageMap
import NucLlm.Errand.Syntax
import NucLlm.Errand.Link
import NucLlm.Errand.Lexer
import NucLlm.Errand.Parser
import NucLlm.Errand.Resolved
import NucLlm.Errand.FrontEnd
import NucLlm.Errand.Positions
import NucLlm.Errand.Interp
import NucLlm.Errand.Traversal
import NucLlm.Errand.Affordable
import NucLlm.Errand.Turns
import NucLlm.Errand.Requests
import NucLlm.Errand.Tokens
import NucLlm.Errand.Ledgers
import NucLlm.Errand.Linked
import NucLlm.Errand.Templates
import NucLlm.KvReuse.Prefix
import NucLlm.KvReuse.Engine
import NucLlm.KvReuse.Exact
import NucLlm.KvReuse.Served
import NucLlm.KvReuse.StateModel
import NucLlm.Nuc.ExpertCache
import NucLlm.Nuc.CapPlan
import NucLlm.Nuc.JournalUnion
import NucLlm.Nuc.JournalMarks
import NucLlm.Nuc.JournalOrder
import NucLlm.Nuc.SarSection
import NucLlm.Nuc.SarMerge
import NucLlm.Nuc.CostLedger
import NucLlm.Nuc.LedgerHoles
import NucLlm.Nuc.BucketMap
import NucLlm.Nuc.BucketIndex
import NucLlm.Harness.ProcScan
import NucLlm.Harness.ProcClean
