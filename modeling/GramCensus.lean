import GramCensus.Binary64
import GramCensus.Buffer
import GramCensus.ByteTree.Basic
import GramCensus.ByteTree.Build
import GramCensus.ByteTree.Flat
import GramCensus.Bytes
import GramCensus.Census
import GramCensus.CommandLine.Arguments
import GramCensus.CommandLine.Basic
import GramCensus.Corpus
import GramCensus.Failure
import GramCensus.FileTree.Basic
import GramCensus.FileTree.Walk
import GramCensus.GramTable
import GramCensus.GramTable.Report
import GramCensus.Main
import GramCensus.MarkSet
import GramCensus.Pass.Basic
import GramCensus.Pass.Worker
import GramCensus.Pool.Basic
import GramCensus.Pool.Flush
import GramCensus.Pool.Threads
import GramCensus.RankTrie.Arrangement
import GramCensus.RankTrie.Basic
import GramCensus.RankTrie.Layout
import GramCensus.Room
import GramCensus.Settings
import GramCensus.Space
import GramCensus.StableSort
import GramCensus.Stream
import GramCensus.Tally.Basic
import GramCensus.Tally.Dump
import GramCensus.Tally.Histogram
import GramCensus.Tally.Selection
import GramCensus.Text.Decoded
import GramCensus.Text.Hidden
import GramCensus.Text.Quoted
import GramCensus.Proofs.Census.Output
import GramCensus.Proofs.Census.Pruning
import GramCensus.Proofs.Census.Recount
import GramCensus.Proofs.Census.Totals
import GramCensus.Proofs.Corpus.Walks
import GramCensus.Proofs.GramTable.Report
import GramCensus.Proofs.MarkSet.Extent
import GramCensus.Proofs.Pool.Alone
import GramCensus.Proofs.Pool.Closing
import GramCensus.Proofs.Pool.Crew
import GramCensus.Proofs.Pool.Groups
import GramCensus.Proofs.Stream.Cutting
import GramCensus.Proofs.Tally.Additions
import GramCensus.Proofs.Tally.Walk
import GramCensus.Proofs.RankTrie.Inverse
import GramCensus.Proofs.RankTrie.Placing
import GramCensus.Proofs.RankTrie.Refusals
import GramCensus.Proofs.ByteTree.Acceptance
import GramCensus.Proofs.ByteTree.Layout
import GramCensus.Proofs.ByteTree.Rebuild
import GramCensus.Pass.Threaded
import GramCensus.Proofs.Pass.Uninterrupted
