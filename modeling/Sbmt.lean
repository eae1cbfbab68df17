import Sbmt.Itg.Bracketing
import Sbmt.Forest.Outside
import Sbmt.Forest.Intersect
import Sbmt.Ngram.Shorten
import Sbmt.Gusc.LatticeRoundTrip
import Sbmt.Gusc.Hiero
import Sbmt.Search.Split
import Sbmt.Search.FilterBank
import Sbmt.Forest.Xplode
import Sbmt.Forest.KbestExact
import Sbmt.Carmel.Cascade
import Sbmt.Carmel.ComposeChain
import Sbmt.Carmel.Estimate
import Sbmt.Search.PoolErrors
import Sbmt.Grammar.Heuristics
import Sbmt.Grammar.PushPop
import Sbmt.Ghkm.BinarizeForest
import Sbmt.Search.SortedCube
import Sbmt.Search.CubeLoop
import Sbmt.Gusc.Unions
import Sbmt.Gusc.LazySequence
import Sbmt.Biglm.Pack
import Sbmt.Biglm.Checked
import Sbmt.Search.CellFilter
import Sbmt.Ghkm.StateSearch
import Sbmt.Biglm.CopySlice
import Sbmt.Gusc.SparseVector
import Sbmt.Grammar.AlignmentText
import Sbmt.Xrs.BrfFeatures
import Sbmt.Xrs.SyntaxRuleArrays
import Sbmt.Hash.DynamicHashCache
import Sbmt.Carmel.DeadCycles
import Sbmt.Edge.Potentials
import Sbmt.Search.ForceRule
import Sbmt.Token.Tokens
import Sbmt.Carmel.Normalized
import Sbmt.Search.UnaryChains
import Sbmt.Carmel.HeapSort
import Sbmt.Carmel.PrunedPaths
import Sbmt.Carmel.ArcCounts
import Sbmt.Carmel.RandomPath
import Sbmt.Search.SkipLattice
import Sbmt.Ghkm.SynBinarize
import Sbmt.Ghkm.WordAlignment
import Sbmt.Ghkm.ForestPut
import Sbmt.Gusc.Chain
import Sbmt.Hash.DoubleHash
import Sbmt.Search.SpanTransforms
import Sbmt.Shared.IndicesAfter
import Sbmt.Shared.TreeHeap
import Sbmt.Gusc.BasicTrie
