import Carmel.Compose.NamedStates
import Carmel.Graph.CountPaths
import Carmel.Fst.BestPath
import Carmel.Graph.SidetrackHeaps
import Carmel.Train.ZeroProbability
import Carmel.Train.Perplexity
import Carmel.Fst.PruneLimit
import Carmel.Fst.StateNames
import Carmel.Stored.Bookkeeping
import Carmel.Stored.OperandRelations
import Carmel.Forest.BestEstimate
import Carmel.Forest.NormalizeGroups
import Carmel.Forest.Viterbi
import Carmel.Forest.AnnealedDraws
import Carmel.Forest.Malformed
import Carmel.Gibbs.Restarts
import Carmel.Storage.BatchRuns
import Carmel.Storage.SwapRuns
import Carmel.Storage.Leb128
import Carmel.Hypergraph.LeastCosts
import Carmel.Hypergraph.Unsorted
import Carmel.Gextract.Proposals
import Carmel.Gextract.Realigned
import Carmel.Gextract.Rebuild
import Carmel.Fst.WeightText
import Carmel.Train.UniformZero
import Carmel.Fst.Generate
import Carmel.Gibbs.DefineParams
import Carmel.Fst.PermutationLattice
import Carmel.Stored.Consolidate
import Carmel.Hash.HashTableRuns
import Carmel.Storage.ContainerText
import Carmel.Gextract.SpanViews
import Carmel.Graph.RemoveStates
import Carmel.Sblm.Totals
import Carmel.Sblm.LmScores
import Carmel.Sblm.TagWord
import Carmel.Storage.StableVectorRuns
import Carmel.Gextract.NodeRuns
import Carmel.Text.WrittenNumbers
import Carmel.Text.Quote
import Carmel.Arrays.HeapSort
import Carmel.Arrays.Removal
import Carmel.Text.ParseReal
import Carmel.Trees.Copy
import Carmel.Text.Split
import Carmel.Text.StringMatch
import Carmel.Text.Escape3
import Carmel.Arrays.SortedSubtract
import Carmel.Random.Permute
import Carmel.Random.ChooseP
import Carmel.Train.EmRuns
import Carmel.Cascade.Transduction
