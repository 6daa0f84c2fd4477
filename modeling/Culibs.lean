import Culibs.Cucon.Ucset.Canonical
import Culibs.Cucon.Ucmap.ArrayReads
import Culibs.Cucon.Ucmap.Canonical
import Culibs.Cucon.Ucmultimap.Canonical
import Culibs.Cucon.Rbtree.Persist
import Culibs.Cucon.Priq.Queue
import Culibs.Cucon.Pritree.Runs
import Culibs.Cucon.LinkedList.Runs
import Culibs.Cucon.Hzmap.Runs
import Culibs.Cucon.Umap.Runs
import Culibs.Cucon.Umap.MoveIsecn
import Culibs.Cucon.Hmap.Runs
import Culibs.Cucon.BitarraySlice
import Culibs.Cucon.Po.Runs
import Culibs.Cuex.Semilattice
import Culibs.Cuex.Monoid
import Culibs.Cuex.Labelling.Laws
import Culibs.Cuex.Subst.Runs
import Culibs.Custo.BinaryIo
import Culibs.Cuos.Path.Normalise
import Culibs.Cuoo.Layout
import Culibs.Cuoo.Halloc.Consing
import Culibs.Cucon.Frame.Access
import Culibs.Cucon.Stack.Runs
import Culibs.Cu.Str.Runs
import Culibs.Cugra.AlgoSCC.Correct
import Culibs.Cugra.Graph.Runs
import Culibs.Cuflow.Gworkq.Runs
import Culibs.Cuex.Binding.Sets
import Culibs.Cucon.Ucset.Extremes
import Culibs.Cucon.Ucset.Iteration
import Culibs.Cucon.Ucmap.Iterate
import Culibs.Cucon.Ucmap.Compare
import Culibs.Cucon.Ucmap.Clip
import Culibs.Cucon.Rbtree.StackBounds
import Culibs.Cucon.Po.Ranges
import Culibs.Cucon.Po.OpenRange
import Culibs.Cucon.Po.ClosedRange
import Culibs.Cucon.Po.Topological
import Culibs.Cucon.Po.Infimum
import Culibs.Cucon.Po.Bounds
import Culibs.Cucon.Rbtree.Nearest
import Culibs.Cucon.Rbtree.Merge
import Culibs.Cucon.Bitarray.Resize
import Culibs.Cucon.Bitarray.Search
import Culibs.Cucon.Bitarray.Compare
import Culibs.Cucon.BitarraySlice.Reads
import Culibs.Cucon.Ucmultimap.Iterate
import Culibs.Cucon.Umap.Compare
import Culibs.Cucon.Fibq.Degree
import Culibs.Cucon.Rumap.Union
import Culibs.Cuex.Subst.Expand
import Culibs.Cuex.Subst.FreeVars
import Culibs.Cuex.Atree.Iterator
import Culibs.Cuex.AlgoFv.Basic
import Culibs.Cuex.Algo.Generalise
import Culibs.Cuex.Algo.Match
import Culibs.Cuex.Opn
